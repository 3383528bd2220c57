import LiskEngine.RmtWorklist
import LiskEngine.RmtStore

/-! Working through a layer of indexes. The prover and the verifier both replace the
indexes of one layer by those of the next, in order; the verifier takes a sibling hash
exactly where the prover has left one. -/
namespace LiskEngine.Rmt
open SplitTree Indexes List OrderedMap

def spot (n i l : Nat) : Nat := place (getHeight n) i l

structure Covers (n i l : Nat) : Prop where
  leaf : i * 2 ^ l < n
  layer : l < getHeight n

section
variable {n i l i' l' : Nat} (covers : Covers n i l) (covers' : Covers n i' l')
include covers

theorem Covers.inside : i < 2^(getHeight n-1-l) := by
  have low := covers.layer
  have top := Nat.le_pow_clog (show 1 < 2 by decide) n
  have parts : Nat.clog 2 n = getHeight n-1-l+l := by
    unfold getHeight at low ⊢
    omega
  rw [parts,pow_add] at top
  exact Nat.lt_of_mul_lt_mul_right (lt_of_lt_of_le covers.leaf top)

theorem Covers.below : i < 2^(getHeight n-l) := lt_of_lt_of_le covers.inside (Nat.pow_le_pow_right (by decide) (by omega))

theorem spotLog : Nat.log 2 (spot n i l) = getHeight n-l := by
  have inside := covers.below
  refine (Nat.log_eq_iff (.inr ⟨by decide,?_⟩)).mpr ⟨Nat.le_add_right _ _,?_⟩
  · have := Nat.two_pow_pos (getHeight n-l)
    unfold spot place
    omega
  · rw [pow_succ]
    unfold spot place
    omega

omit covers in
theorem spotHalf (low : l+1 < getHeight n) : spot n i l/2 = spot n (i/2) (l+1) := by
  have parts : getHeight n-l = getHeight n-(l+1)+1 := by omega
  rw [spot,place,parts,pow_succ,spot,place]
  omega

theorem Covers.parent (low : l+1 < getHeight n) : Covers n (i/2) (l+1) := by
  refine ⟨?_,low⟩
  have half := Nat.mul_le_mul_right (2^l) (Nat.div_mul_le_self i 2)
  have leaf := covers.leaf
  rw [pow_succ,show i/2*(2^l*2) = i/2*2*2^l by ring]
  omega

theorem spotValid (bound : n ≤ 2^61) : Valid (spot n i l) := by
  have inside := covers.below
  have height : getHeight n ≤ 62 := Nat.succ_le_succ ((Nat.clog_le_iff_le_pow (by decide)).mpr bound)
  have power : 2^(getHeight n-l) ≤ 2^62 := Nat.pow_le_pow_right (by decide) (by omega)
  constructor
  · unfold spot place
    omega
  · unfold spot place
    omega

theorem spotShort (bound : n ≤ 2^29) : spot n i l < 2147483648 := by
  have within := covers.inside
  have height : getHeight n ≤ 30 := Nat.succ_le_succ ((Nat.clog_le_iff_le_pow (by decide)).mpr bound)
  have power : 2^(getHeight n-l) ≤ 2^30 := Nat.pow_le_pow_right (by decide) (by omega)
  have power' : 2^(getHeight n-1-l) ≤ 2^29 := Nat.pow_le_pow_right (by decide) (by omega)
  unfold spot place
  omega

theorem spotParity : isLeft (spot n i l) = isLeft i := by
  have low := covers.layer
  obtain ⟨k,digits⟩ : ∃ k, getHeight n - l = k+1 := ⟨getHeight n - l - 1,by omega⟩
  unfold isLeft spot place
  rw [digits,pow_succ,decide_eq_decide]
  omega

omit covers in
theorem spotNotRoot (low : l+1 < getHeight n) : spot n i l ≠ rootIndex := by
  have power : 2^2 ≤ 2^(getHeight n-l) := Nat.pow_le_pow_right (by decide) (by omega)
  unfold spot place rootIndex
  omega

include covers'

theorem spotInjective (same : spot n i l = spot n i' l') : i = i' ∧ l = l' := by
  have layers := congrArg (Nat.log 2) same
  have low' := covers'.layer
  rw [spotLog covers,spotLog covers'] at layers
  obtain rfl : l = l' := by omega
  unfold spot place at same
  exact ⟨by omega,rfl⟩

theorem spotLess (bound : n ≤ 2^61) : less (spot n i l) (spot n i' l') ↔ l < l' ∨ l = l' ∧ i < i' := by
  have low' := covers'.layer
  rw [lessIff (spotValid covers bound) (spotValid covers' bound),spotLog covers,spotLog covers']
  constructor
  · rintro (above | ⟨same,less⟩)
    · exact .inl (by omega)
    · obtain rfl : l = l' := by omega
      exact .inr ⟨rfl,by unfold spot place at less; omega⟩
  · rintro (above | ⟨rfl,less⟩)
    · exact .inl (by omega)
    · exact .inr ⟨rfl,by unfold spot place; omega⟩

end

theorem spotRoot (n : Nat) : spot n 0 (getHeight n-1) = rootIndex := by
  have one : getHeight n-(getHeight n-1) = 1 := by
    unfold getHeight
    omega
  rw [spot,place,one]
  rfl

theorem topCovers (covers : Covers n i (getHeight n-1)) : i = 0 := by
  have within := covers.inside
  rw [Nat.sub_self] at within
  omega

theorem standsLow (stands : Stands n i l) : l < getHeight n := by
  cases l with
  | zero => exact Nat.succ_pos _
  | succ l =>
    rw [standsSucc,add_mul,one_mul] at stands
    exact Nat.succ_lt_succ ((Nat.lt_clog_iff_pow_lt (by decide)).mpr (by omega))

theorem standsSpot (stands : Stands n i l) : Covers n i l := ⟨standsCovers stands,standsLow stands⟩

theorem shownCovers (leaf : i*2^l < n) (layer : l < getHeight n) : Covers n (shown n i l).1 (shown n i l).2 := by
  obtain ⟨low,stands,_⟩ := shownSpec leaf
  exact ⟨standsCovers stands,lt_of_le_of_lt low layer⟩

theorem siblingOfSpot (covers : Covers n i l) (bound : n ≤ 2^61) (fits : i < 2147483648) :
    siblingOf n (getHeight n) (spot n i l) = if twin i*2^l < n then
        if spot n (shown n (twin i) l).1 (shown n (twin i) l).2 < 2147483648 then
          .ok (some (⟨(shown n (twin i) l).1,(shown n (twin i) l).2⟩,spot n (shown n (twin i) l).1 (shown n (twin i) l).2))
        else .error .parseRange else .ok none := by
  have valid := spotValid covers bound
  have height : getHeight n ≤ 62 := Nat.succ_le_succ ((Nat.clog_le_iff_le_pow (by decide)).mpr bound)
  have small : twin i*2^l < 18446744073709551616 := by
    have within := covers.inside
    have low := covers.layer
    have near : twin i ≤ 2^(getHeight n-1-l) := by
      unfold twin
      omega
    have power : 2^(getHeight n-1-l)*2^l ≤ 2^62 := by
      rw [← pow_add]
      exact Nat.pow_le_pow_right (by decide) (by omega)
    have := Nat.mul_le_mul_right (2^l) near
    omega
  unfold siblingOf
  rw [show newNodeLocation (spot n i l) (getHeight n) = .ok ⟨i,l⟩ from
    (newNodeLocationPlace covers.layer covers.below valid.small).trans (if_pos fits)]
  simp only [bind,Except.bind,rightSibling covers.layer small]
  by_cases within : twin i*2^l < n
  · rw [if_pos within,if_pos within]
    have hit := shownCovers within covers.layer
    have smaller : (shown n (twin i) l).1 < 9223372036854775808 := by
      have := hit.leaf
      have := Nat.le_mul_of_pos_right (shown n (twin i) l).1 (Nat.two_pow_pos (shown n (twin i) l).2)
      omega
    simp only [indexPlace hit.layer hit.below smaller,spot]
    by_cases short : place (getHeight n) (shown n (twin i) l).1 (shown n (twin i) l).2 < 2147483648
    · simp only [if_pos short]
      exact (if_pos short).symm
    · simp only [if_neg short]
      exact (if_neg short).symm
  · rw [if_neg within,if_neg within]

def push (ups : List Nat) (y : Nat) : List Nat := if y ∈ ups then ups else ups ++ [y]

theorem memPush : z ∈ push ups y ↔ z ∈ ups ∨ z = y := by
  unfold push
  split
  · rename_i mem
    exact ⟨Or.inl,fun either => either.elim id (fun same => same ▸ mem)⟩
  · simp

theorem pushTwice (ups : List Nat) (y : Nat) : push (push ups y) y = push ups y := by
  rw [push,if_pos (memPush.mpr (.inr rfl))]

def listed (n l : Nat) (rest ups : List Nat) : List Nat :=
  rest.map (fun x => spot n x l) ++ ups.map (fun y => spot n y (l + 1))

structure Layer (n l : Nat) (rest ups : List Nat) : Prop where
  bound : n ≤ 2 ^ 29
  low : l + 1 < getHeight n
  leaves : ∀ x ∈ rest, x * 2 ^ l < n
  parents : ∀ y ∈ ups, y * 2 ^ (l + 1) < n
  sorted : rest.Pairwise (· < ·)
  upsSorted : ups.Pairwise (· < ·)
  above : ∀ y ∈ ups, ∀ x ∈ rest, y ≤ x / 2

section
variable {n l : Nat} {rest ups : List Nat} (layer : Layer n l rest ups)
include layer

theorem Layer.covers : ∀ x ∈ rest, Covers n x l := fun x mem => ⟨layer.leaves x mem,by have := layer.low; omega⟩

theorem Layer.covers' : ∀ y ∈ ups, Covers n y (l+1) := fun y mem => ⟨layer.parents y mem,layer.low⟩

theorem Layer.large : n ≤ 2^61 := le_trans layer.bound (by decide)

theorem Layer.valid : ∀ idx ∈ listed n l rest ups, Valid idx := by
  intro idx mem
  rcases mem_append.mp mem with inRest | inUps
  · obtain ⟨x,inside,rfl⟩ := mem_map.mp inRest
    exact spotValid (layer.covers x inside) layer.large
  · obtain ⟨y,inside,rfl⟩ := mem_map.mp inUps
    exact spotValid (layer.covers' y inside) layer.large

theorem Layer.ordered : Ordered (listed n l rest ups) := by
  refine pairwise_append.mpr ⟨pairwise_map.mpr ?_,pairwise_map.mpr ?_,?_⟩
  · refine List.Pairwise.imp_of_mem (fun {a b} memberA memberB below => ?_) layer.sorted
    rw [spotLess (layer.covers b memberB) (layer.covers a memberA) layer.large]
    omega
  · refine List.Pairwise.imp_of_mem (fun {a b} memberA memberB below => ?_) layer.upsSorted
    rw [spotLess (layer.covers' b memberB) (layer.covers' a memberA) layer.large]
    omega
  · intro a inRest b inUps
    obtain ⟨x,memberX,rfl⟩ := mem_map.mp inRest
    obtain ⟨y,memberY,rfl⟩ := mem_map.mp inUps
    rw [spotLess (layer.covers' y memberY) (layer.covers x memberX) layer.large]
    omega

end

section
variable {n l x : Nat} {rest ups : List Nat} (layer : Layer n l (x :: rest) ups)
include layer

theorem Layer.tail : Layer n l rest (push ups (x/2)) := by
  obtain ⟨bound,low,leaves,parents,sorted,upsSorted,above⟩ := layer
  obtain ⟨first,later⟩ := pairwise_cons.mp sorted
  refine ⟨bound,low,fun z mem => leaves z (mem_cons_of_mem x mem),fun y mem => ?_,later,?_,fun y mem z inside => ?_⟩
  · rcases memPush.mp mem with old | rfl
    · exact parents y old
    · exact ((⟨leaves x (.head _),by omega⟩ : Covers n x l).parent low).leaf
  · unfold push
    split
    · exact upsSorted
    rename_i fresh
    refine pairwise_append.mpr ⟨upsSorted,pairwise_singleton _ _,fun y mem z last => ?_⟩
    rw [mem_singleton.mp last]
    have atMost := above y mem x (.head _)
    have other : y ≠ x/2 := fun same => fresh (same ▸ mem)
    omega
  · have step := first z inside
    rcases memPush.mp mem with old | rfl
    · exact above y old z (mem_cons_of_mem x inside)
    · omega

theorem Layer.drop : Layer n l rest ups := by
  obtain ⟨bound,low,leaves,parents,sorted,upsSorted,above⟩ := layer
  exact ⟨bound,low,fun z mem => leaves z (mem_cons_of_mem x mem),parents,(pairwise_cons.mp sorted).2,upsSorted,
    fun y mem z inside => above y mem z (mem_cons_of_mem x inside)⟩

theorem Layer.insert : Indexes.insert (listed n l rest ups) (spot n x l/2) = listed n l rest (push ups (x/2)) := by
  have low := layer.low
  have here := layer.covers x (.head _)
  have up := here.parent low
  have rest' := layer.drop
  have notAbove : ∀ idx ∈ listed n l rest ups, ¬less (spot n (x/2) (l+1)) idx := by
    intro idx mem
    rcases mem_append.mp mem with inRest | inUps
    · obtain ⟨z,inside,rfl⟩ := mem_map.mp inRest
      rw [spotLess up (rest'.covers z inside) layer.large]
      omega
    · obtain ⟨y,inside,rfl⟩ := mem_map.mp inUps
      rw [spotLess up (rest'.covers' y inside) layer.large]
      have := layer.above y inside x (.head _)
      omega
  have known : spot n (x/2) (l+1) ∈ listed n l rest ups ↔ x/2 ∈ ups := by
    constructor
    · intro mem
      rcases mem_append.mp mem with inRest | inUps
      · obtain ⟨z,inside,same⟩ := mem_map.mp inRest
        have := (spotInjective (rest'.covers z inside) up same).2
        omega
      · obtain ⟨y,inside,same⟩ := mem_map.mp inUps
        rwa [← (spotInjective (rest'.covers' y inside) up same).1]
    · exact fun mem => mem_append_right _ (mem_map.mpr ⟨_,mem,rfl⟩)
  rw [spotHalf low]
  rcases insertSpec (spotValid up layer.large) rest'.valid rest'.ordered with ⟨same,mem⟩ | ⟨front,back,whole,inserted,before,after⟩
  · rw [same,push,if_pos (known.mp mem)]
  have empty : back = [] := by
    cases back with
    | nil => rfl
    | cons a back => exact absurd (after a (.head _)) (notAbove a (by rw [whole]; simp))
  subst empty
  have fresh : x/2 ∉ ups := fun mem => by
    have inFront := known.mpr mem
    rw [whole,append_nil] at inFront
    have self := before _ inFront
    rw [spotLess up up layer.large] at self
    omega
  rw [inserted,push,if_neg fresh]
  rw [append_nil] at whole
  rw [← whole]
  simp [listed]

end

def reached (leaves : List Nat) (l : Nat) : List Nat := leaves.map (· / 2 ^ l)

theorem reachedUp : y ∈ reached leaves (l+1) ↔ ∃ x ∈ reached leaves l, x/2 = y := by
  simp only [reached,mem_map,exists_exists_and_eq_and,pow_succ,Nat.div_div_eq_div_mul]

def needed (sha : Bytes → Bytes) (values : List Bytes) (leaves : List Nat) (l x : Nat) : List Bytes :=
  if twin x * 2 ^ l < values.length ∧ twin x ∉ reached leaves l then [nodeHash sha values (twin x) l] else []

theorem nodeHashShown (sha : Bytes → Bytes) (vs : List Bytes) (i l : Nat) :
    nodeHash sha vs (shown vs.length i l).1 (shown vs.length i l).2 = nodeHash sha vs i l := nodeShown vs i l

theorem twinHalf (x : Nat) : twin x/2 = x/2 ∧ (x % 2 = 0 → twin x = x+1) ∧ (x % 2 = 1 → twin x+1 = x) := by
  unfold twin
  omega

theorem parentStands (covers : Covers n x l) : Stands n (x/2) (l+1) ↔ twin x*2^l < n := by
  rw [standsSucc]
  obtain ⟨_,even,odd⟩ := twinHalf x
  rcases Nat.mod_two_eq_zero_or_one x with zero | one
  · rw [show 2*(x/2)+1 = twin x by have := even zero; omega]
  rw [show 2*(x/2)+1 = x by omega]
  have smaller := Nat.mul_le_mul_right (2^l) (show twin x ≤ x by have := odd one; omega)
  have := covers.leaf
  constructor <;> intro _ <;> omega

theorem parentHash {sha vs l x} (covers : Covers vs.length x l) : nodeHash sha vs (x/2) (l+1) = if twin x*2^l < vs.length then
        branchHash sha (parentData x (nodeHash sha vs x l) (nodeHash sha vs (twin x) l)) else nodeHash sha vs x l := by
  obtain ⟨_,even,odd⟩ := twinHalf x
  split
  · rename_i inside
    rw [nodeHashBranch ((parentStands covers).mpr inside),branchHash,parentData,isLeft]
    rcases Nat.mod_two_eq_zero_or_one x with zero | one
    · rw [show 2*(x/2) = x by omega,← even zero]
      simp [zero]
    · rw [show 2*(x/2)+1 = x by omega,show 2*(x/2) = twin x by have := odd one; omega]
      simp [one]
  · rename_i out
    have zero : x % 2 = 0 := by
      by_contra one
      have smaller := Nat.mul_le_mul_right (2^l) (show twin x ≤ x by have := odd (by omega); omega)
      have := covers.leaf
      omega
    rw [nodeHashShort (fun stands => out ((parentStands covers).mp stands)),show 2*(x/2) = x by omega]

structure Walk (sha : Bytes → Bytes) (values : List Bytes) (leaves : List Nat) (l : Nat) (rest ups : List Nat)
    (state : PathState) : Prop where
  layer : Layer values.length l rest ups
  within : ∀ j ∈ leaves, j < values.length
  found : ∀ x ∈ rest, x ∈ reached leaves l
  foundUps : ∀ y ∈ ups, y ∈ reached leaves (l + 1)
  complete : ∀ x ∈ reached leaves l, x ∈ rest ∨ x / 2 ∈ ups
  results : ∀ i m, Covers values.length i m → state.result.get (spot values.length i m) =
    if Stands values.length i m ∧ (m ≤ l ∧ i ∈ reached leaves m ∨ m = l + 1 ∧ i ∈ ups)
      then some (nodeHash sha values i m) else none
  spots : ∀ idx hash, state.result.get idx = some hash → ∃ i m, Covers values.length i m ∧ idx = spot values.length i m
  waiting : ∀ x ∈ rest, ¬Stands values.length x l →
    state.parentCache.get (spot values.length x l) = some (nodeHash sha values x l)
  passed : ∀ y ∈ ups, ¬Stands values.length y (l + 1) →
    state.parentCache.get (spot values.length y (l + 1)) = some (nodeHash sha values y (l + 1))

section
variable {sha : Bytes → Bytes} {vs : List Bytes} {leaves : List Nat} {l x : Nat} {rest ups : List Nat} {state : PathState}

section
variable (walk : Walk sha vs leaves l (x :: rest) ups state)
include walk

theorem Walk.current : (state.result.get (spot vs.length x l)).or (state.parentCache.get (spot vs.length x l)) =
      some (nodeHash sha vs x l) := by
  have here := walk.layer.covers x (.head _)
  rw [walk.results x l here]
  by_cases stands : Stands vs.length x l
  · rw [if_pos ⟨stands,Or.inl ⟨le_refl l,walk.found x (.head _)⟩⟩]
    rfl
  · rw [if_neg (fun both => stands both.1),walk.waiting x (.head _) stands]
    rfl

theorem Walk.sibling (inside : twin x*2^l < vs.length) (supplied : state.siblingHashes = needed sha vs leaves l x ++ more) :
    takeSibling state (spot vs.length (shown vs.length (twin x) l).1 (shown vs.length (twin x) l).2) =
      .ok (nodeHash sha vs (twin x) l,more) := by
  have here := walk.layer.covers x (.head _)
  obtain ⟨low,stands,_,same⟩ := shownSpec inside
  have above : (shown vs.length (twin x) l).1 ∈ reached leaves (shown vs.length (twin x) l).2 ↔ twin x ∈ reached leaves l := by
    simp only [reached,mem_map]
    constructor
    · rintro ⟨j,mem,equal⟩
      exact ⟨j,mem,(same j (walk.within j mem)).mp equal⟩
    · rintro ⟨j,mem,equal⟩
      exact ⟨j,mem,(same j (walk.within j mem)).mpr equal⟩
  unfold takeSibling
  rw [walk.results _ _ (shownCovers inside here.layer)]
  by_cases known : twin x ∈ reached leaves l
  · rw [if_pos ⟨stands,Or.inl ⟨low,above.mpr known⟩⟩]
    rw [needed,if_neg (·.2 known),nil_append] at supplied
    simp only [nodeHashShown,supplied]
  · rw [if_neg (fun both => by
      rcases both.2 with ⟨_,mem⟩ | ⟨layer,_⟩
      · exact known (above.mp mem)
      · omega)]
    rw [needed,if_pos ⟨inside,known⟩] at supplied
    simp only [supplied,singleton_append]

theorem Walk.parentFound : ∀ y ∈ push ups (x/2), y ∈ reached leaves (l+1) := fun y mem => by
  rcases memPush.mp mem with old | rfl
  · exact walk.foundUps y old
  · exact reachedUp.mpr ⟨x,walk.found x (.head _),rfl⟩

theorem Walk.parentComplete : ∀ z ∈ reached leaves l, z ∈ rest ∨ z/2 ∈ push ups (x/2) := fun z mem => by
  rcases walk.complete z mem with inRest | inUps
  · rcases mem_cons.mp inRest with rfl | later
    · exact .inr (memPush.mpr (.inr rfl))
    · exact .inl later
  · exact .inr (memPush.mpr (.inl inUps))

theorem Walk.parentSet (stands : Stands vs.length (x/2) (l+1)) :
    setParent state (spot vs.length (x/2) (l+1)) (nodeHash sha vs (x/2) (l+1)) more =
      .ok ⟨more,state.result.set (spot vs.length (x/2) (l+1)) (nodeHash sha vs (x/2) (l+1)),state.parentCache⟩ := by
  unfold setParent
  rw [walk.results _ _ ((walk.layer.covers x (.head _)).parent walk.layer.low)]
  by_cases known : x/2 ∈ ups
  · rw [if_pos ⟨stands,Or.inr ⟨rfl,known⟩⟩]
    simp
  rw [if_neg (fun both => by
    rcases both.2 with ⟨high,_⟩ | ⟨_,mem⟩
    · omega
    · exact known mem)]

theorem Walk.hashed (stands : Stands vs.length (x/2) (l+1)) : Walk sha vs leaves l rest (push ups (x/2))
    ⟨more,state.result.set (spot vs.length (x/2) (l+1)) (nodeHash sha vs (x/2) (l+1)),state.parentCache⟩ := by
  have up := (walk.layer.covers x (.head _)).parent walk.layer.low
  refine ⟨walk.layer.tail,walk.within,fun z mem => walk.found z (mem_cons_of_mem x mem),walk.parentFound,
    walk.parentComplete,fun i m covers => ?_,fun idx hash held => ?_,
    fun z mem => walk.waiting z (mem_cons_of_mem x mem),fun y mem fallen => ?_⟩
  · simp only [getSet]
    by_cases equal : spot vs.length i m = spot vs.length (x/2) (l+1)
    · obtain ⟨rfl,rfl⟩ := spotInjective covers up equal
      rw [if_pos rfl,if_pos ⟨stands,Or.inr ⟨rfl,memPush.mpr (.inr rfl)⟩⟩]
    rw [if_neg equal,walk.results i m covers]
    have same : (m = l+1 ∧ i ∈ ups) ↔ (m = l+1 ∧ i ∈ push ups (x/2)) := by
      refine and_congr_right (fun layer => ⟨fun mem => memPush.mpr (.inl mem),fun mem => ?_⟩)
      rcases memPush.mp mem with old | rfl
      · exact old
      · exact absurd (by rw [layer]) equal
    simp only [same]
  · simp only [getSet] at held
    split at held
    · rename_i equal
      exact ⟨x/2,l+1,up,equal⟩
    · exact walk.spots idx hash held
  · rcases memPush.mp mem with old | rfl
    · exact walk.passed y old fallen
    · exact absurd stands fallen

theorem Walk.carried (fallen : ¬Stands vs.length (x/2) (l+1))
    (value : nodeHash sha vs (x/2) (l+1) = nodeHash sha vs x l) : Walk sha vs leaves l rest (push ups (x/2))
    ⟨more,state.result,state.parentCache.set (spot vs.length (x/2) (l+1)) (nodeHash sha vs x l)⟩ := by
  have up := (walk.layer.covers x (.head _)).parent walk.layer.low
  refine ⟨walk.layer.tail,walk.within,fun z mem => walk.found z (mem_cons_of_mem x mem),walk.parentFound,
    walk.parentComplete,fun i m covers => ?_,walk.spots,fun z mem fallen' => ?_,fun y mem fallen' => ?_⟩
  · rw [walk.results i m covers]
    have same : Stands vs.length i m ∧ (m ≤ l ∧ i ∈ reached leaves m ∨ m = l+1 ∧ i ∈ ups) ↔
        Stands vs.length i m ∧ (m ≤ l ∧ i ∈ reached leaves m ∨ m = l+1 ∧ i ∈ push ups (x/2)) := by
      refine and_congr_right (fun stands => or_congr_right (and_congr_right (fun layer => ?_)))
      refine ⟨fun mem => memPush.mpr (.inl mem),fun mem => ?_⟩
      rcases memPush.mp mem with old | rfl
      · exact old
      · exact absurd (layer ▸ stands) fallen
    simp only [same]
  · have other : spot vs.length z l ≠ spot vs.length (x/2) (l+1) := fun equal => by
      have := (spotInjective (walk.layer.covers z (mem_cons_of_mem x mem)) up equal).2
      omega
    simp only [getSet,if_neg other]
    exact walk.waiting z (mem_cons_of_mem x mem) fallen'
  · simp only [getSet]
    by_cases equal : spot vs.length y (l+1) = spot vs.length (x/2) (l+1)
    · have covers : Covers vs.length y (l+1) := by
        rcases memPush.mp mem with old | rfl
        · exact walk.layer.covers' y old
        · exact up
      rw [(spotInjective covers up equal).1,if_pos rfl,value]
    · rw [if_neg equal]
      rcases memPush.mp mem with old | rfl
      · exact walk.passed y old fallen'
      · exact absurd rfl equal

theorem Walk.step (supplied : state.siblingHashes = needed sha vs leaves l x ++ more) :
    ∃ state', pathStep sha vs.length (getHeight vs.length) (spot vs.length x l) state = .ok state' ∧
      state'.siblingHashes = more ∧ Walk sha vs leaves l rest (push ups (x/2)) state' := by
  have here := walk.layer.covers x (.head _)
  have limit := walk.layer.bound
  have fits : x < 2147483648 := by
    have := here.leaf
    have := Nat.le_mul_of_pos_right x (Nat.two_pow_pos l)
    omega
  have value := @parentHash sha vs l x here
  unfold pathStep
  rw [walk.current]
  simp only [siblingOfSpot here walk.layer.large fits,spotHalf walk.layer.low]
  by_cases inside : twin x*2^l < vs.length
  · rw [if_pos inside,if_pos (spotShort (shownCovers inside here.layer) limit)]
    rw [if_pos inside] at value
    have stands := (parentStands here).mpr inside
    have same : branchHash sha (parentData (spot vs.length x l) (nodeHash sha vs x l) (nodeHash sha vs (twin x) l)) =
        nodeHash sha vs (x/2) (l+1) := by
      rw [value,parentData,parentData,spotParity here]
    simp only [bind,Except.bind,walk.sibling inside supplied,same]
    exact ⟨_,walk.parentSet stands,rfl,walk.hashed stands⟩
  · rw [if_neg inside]
    rw [if_neg inside] at value
    have supplied' : state.siblingHashes = more := by
      rw [supplied,needed,if_neg (fun both => inside both.1)]
      rfl
    exact ⟨_,rfl,supplied',walk.carried (fun stands => inside ((parentStands here).mp stands)) value⟩

end

end

end LiskEngine.Rmt
