import LiskEngine.RmtWalk

/-! Whole runs of the prover and the verifier over the layers of the tree. -/
namespace LiskEngine.Rmt
open SplitTree Indexes List

section
variable {sha : Bytes → Bytes}

theorem siblingOfZero (size height : Nat) : siblingOf size height 0 = .error .indexNotFromOne := rfl

theorem pathLoopRounds {size height fuel fuel' idxs state} (enough : idxs.sum < fuel) (enough' : idxs.sum < fuel') :
    pathLoop sha size height fuel idxs state = pathLoop sha size height fuel' idxs state := by
  induction fuel generalizing fuel' idxs state with
  | zero => omega
  | succ fuel ih =>
    obtain ⟨fuel',rfl⟩ : ∃ k, fuel' = k+1 := ⟨fuel' - 1,by omega⟩
    cases idxs with
    | nil => rfl
    | cons idx rest =>
      rw [sum_cons] at enough enough'
      unfold pathLoop
      split
      · rfl
      cases moved : pathStep sha size height idx state with
      | error e => rfl
      | ok state' =>
        have pos : 0 < idx := by
          by_contra zero
          obtain rfl : idx = 0 := by omega
          unfold pathStep at moved
          split at moved
          · cases moved
          · rw [siblingOfZero] at moved
            cases moved
        have smaller := sumInsert rest (idx/2)
        exact ih (by omega) (by omega)

theorem siblingLoopRounds {db size height fuel fuel' originals idxs out} (enough : idxs.sum < fuel) (enough' : idxs.sum < fuel') :
    siblingLoop db size height originals fuel idxs out = siblingLoop db size height originals fuel' idxs out := by
  induction fuel generalizing fuel' idxs out with
  | zero => omega
  | succ fuel ih =>
    obtain ⟨fuel',rfl⟩ : ∃ k, fuel' = k+1 := ⟨fuel' - 1,by omega⟩
    cases idxs with
    | nil => rfl
    | cons idx rest =>
      rw [sum_cons] at enough enough'
      unfold siblingLoop
      have removed : (remove (idx::rest) idx).sum ≤ rest.sum := by
        have others := sumRemove rest idx
        unfold remove at *
        rw [filter_cons,if_neg (by simp)]
        exact others
      have smaller := sumInsert (remove (idx::rest) idx) (idx/2)
      split
      · rename_i pair
        have paired : (Indexes.insert rest.tail (idx/2)).sum < idx+rest.sum := by
          have smaller := sumInsert rest.tail (idx/2)
          cases rest with
          | nil => simp [Rmt.paired] at pair
          | cons next rest =>
            rw [tail_cons] at *
            rw [sum_cons]
            have sibling : idx ^^^ next = 1 := by
              simp only [Rmt.paired,areSiblings,Bool.and_eq_true,decide_eq_true_eq] at pair
              exact pair.2
            have nz : idx ≠ 0 ∨ next ≠ 0 := by
              by_contra both
              obtain ⟨first,second⟩ := not_or.mp both
              rw [not_not] at first second
              rw [first,second] at sibling
              cases sibling
            omega
        exact ih (by omega) (by omega)
      · split
        · rfl
        cases hit : siblingOf size height idx with
        | error e => rfl
        | ok sibling =>
          have pos : 0 < idx := by
            by_contra zero
            obtain rfl : idx = 0 := by omega
            rw [siblingOfZero] at hit
            cases hit
          cases sibling with
          | none => exact ih (by omega) (by omega)
          | some pair =>
            obtain ⟨loc,siblingIdx⟩ := pair
            simp only [bind,Except.bind]
            split
            · exact ih (by omega) (by omega)
            · split
              · rfl
              · exact ih (by omega) (by omega)

end

def upper (rest ups : List Nat) : List Nat := rest.foldl (fun ups x => push ups (x / 2)) ups

def neededFrom (sha : Bytes → Bytes) (values : List Bytes) (leaves : List Nat) : Nat → Nat → List Nat → List Bytes
  | 0, _, _ => []
  | layers + 1, l, rest =>
    rest.flatMap (needed sha values leaves l) ++ neededFrom sha values leaves layers (l + 1) (upper rest [])

theorem listedNext (n l : Nat) (ups : List Nat) : listed n l [] ups = listed n (l+1) ups [] := by simp [listed]

theorem Layer.next (layer : Layer n l [] ups) (low : l+2 < getHeight n) : Layer n (l+1) ups [] :=
  ⟨layer.bound,low,layer.parents,by simp,layer.upsSorted,List.Pairwise.nil,by simp⟩

theorem Layer.upper (layer : Layer n l rest ups) : Layer n l [] (upper rest ups) := by
  induction rest generalizing ups with
  | nil => exact layer
  | cons x rest ih => exact ih layer.tail

theorem memUpper : y ∈ upper rest ups ↔ y ∈ ups ∨ ∃ x ∈ rest, x/2 = y := by
  induction rest generalizing ups with
  | nil => simp [upper]
  | cons x rest ih =>
    have step := @ih (push ups (x/2))
    rw [memPush,or_assoc] at step
    simp only [mem_cons,exists_eq_or_imp,eq_comm (a := x/2)]
    exact step

section
variable {sha : Bytes → Bytes} {vs : List Bytes} {leaves : List Nat} {l : Nat} {rest ups : List Nat} {state : PathState}

theorem Walk.layerRun (walk : Walk sha vs leaves l rest ups state)
    (supplied : state.siblingHashes = rest.flatMap (needed sha vs leaves l) ++ more) :
    ∃ state', (∀ fuel, pathLoop sha vs.length (getHeight vs.length) (rest.length+fuel) (listed vs.length l rest ups) state =
          pathLoop sha vs.length (getHeight vs.length) fuel (listed vs.length l [] (upper rest ups)) state') ∧
      state'.siblingHashes = more ∧ Walk sha vs leaves l [] (upper rest ups) state' := by
  induction rest generalizing ups state with
  | nil => exact ⟨state,fun fuel => by rw [length_nil,zero_add]; rfl,supplied,walk⟩
  | cons x rest ih =>
    rw [flatMap_cons,append_assoc] at supplied
    obtain ⟨state',moved,left,walk'⟩ := walk.step supplied
    obtain ⟨state'',run,left',walk''⟩ := ih walk' left
    refine ⟨state'',fun fuel => ?_,left',walk''⟩
    have split : listed vs.length l (x::rest) ups = spot vs.length x l::listed vs.length l rest ups := rfl
    rw [length_cons,add_right_comm,split,pathLoop,if_neg (spotNotRoot walk.layer.low),moved]
    rw [walk.layer.insert]
    exact run fuel

theorem Walk.next (walk : Walk sha vs leaves l [] ups state) (low : l+2 < getHeight vs.length) :
    Walk sha vs leaves (l+1) ups [] state := by
  obtain ⟨layer,fit,_,foundUps,complete,results,spots,_,passed⟩ := walk
  have same : ∀ y, y ∈ ups ↔ y ∈ reached leaves (l+1) := by
    refine fun y => ⟨foundUps y,fun mem => ?_⟩
    obtain ⟨x,below,rfl⟩ := reachedUp.mp mem
    rcases complete x below with none | inside
    · cases none
    · exact inside
  refine ⟨layer.next low,fit,foundUps,by simp,
    fun x mem => Or.inl ((same x).mpr mem),fun i m covers => ?_,spots,passed,by simp⟩
  rw [results i m covers]
  have split : (m ≤ l ∧ i ∈ reached leaves m ∨ m = l+1 ∧ i ∈ ups) ↔
      (m ≤ l+1 ∧ i ∈ reached leaves m ∨ m = l+1+1 ∧ i ∈ []) := by
    constructor
    · rintro (⟨low,mem⟩ | ⟨rfl,mem⟩)
      · exact .inl ⟨by omega,mem⟩
      · exact .inl ⟨le_refl _,(same i).mp mem⟩
    · rintro (⟨low,mem⟩ | ⟨_,absent⟩)
      · rcases lt_or_ge l m with top | below
        · obtain rfl : m = l+1 := by omega
          exact .inr ⟨rfl,(same i).mpr mem⟩
        · exact .inl ⟨below,mem⟩
      · cases absent
  simp only [split]

structure Computed (sha : Bytes → Bytes) (values : List Bytes) (leaves : List Nat) (result : OrderedMap Nat Bytes) : Prop where
  nodes : ∀ i m, Covers values.length i m → result.get (spot values.length i m) =
    if Stands values.length i m ∧ i ∈ reached leaves m then some (nodeHash sha values i m) else none
  spots : ∀ idx hash, result.get idx = some hash → ∃ i m, Covers values.length i m ∧ idx = spot values.length i m

theorem Walk.computed (walk : Walk sha vs leaves l [] ups state) (top : l+2 = getHeight vs.length) :
    Computed sha vs leaves state.result := by
  refine ⟨fun i m covers => ?_,walk.spots⟩
  have low := covers.layer
  rw [walk.results i m covers]
  have same : (m ≤ l ∧ i ∈ reached leaves m ∨ m = l+1 ∧ i ∈ ups) ↔ i ∈ reached leaves m := by
    constructor
    · rintro (⟨_,mem⟩ | ⟨rfl,mem⟩)
      · exact mem
      · exact walk.foundUps i mem
    · intro mem
      rcases lt_or_ge l m with above | below
      · obtain rfl : m = l+1 := by omega
        obtain ⟨x,inside,rfl⟩ := reachedUp.mp mem
        rcases walk.complete x inside with none | inUps
        · cases none
        · exact .inr ⟨rfl,inUps⟩
      · exact .inl ⟨below,mem⟩
  simp only [same]

theorem topListed (filled : ups ≠ []) (layer : Layer vs.length l [] ups) (top : l+2 = getHeight vs.length) :
    listed vs.length l [] ups = [rootIndex] := by
  have zero : ∀ y ∈ ups, y = 0 := fun y mem => by
    have covers := layer.covers' y mem
    have last : l+1 = getHeight vs.length-1 := by omega
    rw [last] at covers
    exact topCovers covers
  cases ups with
  | nil => exact absurd rfl filled
  | cons y rest =>
    obtain rfl := zero y (.head _)
    have single : rest = [] := by
      cases rest with
      | nil => rfl
      | cons z rest =>
        have below := (pairwise_cons.mp layer.upsSorted).1 z (.head _)
        rw [zero z (by simp)] at below
        omega
    rw [single,← spotRoot vs.length,show getHeight vs.length-1 = l+1 by omega]
    rfl

theorem Walk.run (walk : Walk sha vs leaves l rest [] state) (filled : leaves ≠ [])
    (top : l+1+layers = getHeight vs.length) (supplied : state.siblingHashes = neededFrom sha vs leaves layers l rest ++ more) :
    ∃ rounds res, (∀ fuel, pathLoop sha vs.length (getHeight vs.length) (rounds+fuel+1)
        (listed vs.length l rest []) state = .ok res) ∧ Computed sha vs leaves res := by
  induction layers generalizing l rest state with
  | zero =>
    have := walk.layer.low
    omega
  | succ layers ih =>
    rw [neededFrom,append_assoc] at supplied
    obtain ⟨state',ran,left,walk'⟩ := walk.layerRun supplied
    by_cases last : layers = 0
    · subst last
      have ne : upper rest [] ≠ [] := by
        intro none
        obtain ⟨j,others,rfl⟩ := exists_cons_of_ne_nil filled
        have first : j/2^l ∈ reached (j::others) l := mem_map.mpr ⟨j,mem_cons_self,rfl⟩
        rcases walk'.complete _ first with bad | bad
        · cases bad
        · rw [none] at bad
          cases bad
      refine ⟨rest.length,state'.result,fun fuel => ?_,walk'.computed (by omega)⟩
      rw [add_assoc,ran (fuel+1),topListed ne walk'.layer (by omega),pathLoop,if_pos rfl]
    · obtain ⟨rounds,res,run,computed⟩ := ih (walk'.next (by omega)) (by omega) left
      refine ⟨rest.length+rounds,res,fun fuel => ?_,computed⟩
      rw [show rest.length+rounds+fuel+1 = rest.length+(rounds+fuel+1) by omega,ran,listedNext]
      exact run fuel

end

theorem xorOne (even : a % 2 = 0) : a ^^^ b = 1 ↔ b = a+1 := by
  have next := Nat.xor_one_of_even (Nat.even_iff.mpr even)
  constructor
  · intro one
    rw [← next,← one,Nat.xor_xor_cancel_left]
  · rintro rfl
    rw [← next,Nat.xor_xor_cancel_left]

section
variable {n l x : Nat} {rest ups : List Nat} (layer : Layer n l (x :: rest) ups)
include layer

theorem pairedIff : paired (spot n x l) (listed n l rest ups) = true ↔ x % 2 = 0 ∧ ∃ more, rest = (x+1)::more := by
  have here := layer.covers x (.head _)
  have left : isLeft (spot n x l) = true ↔ x % 2 = 0 := by rw [spotParity here,isLeft,decide_eq_true_eq]
  cases rest with
  | nil =>
    have other : ∀ next rest', listed n l [] ups = next::rest' → areSameLayer (spot n x l) next = false := by
      intro next rest' whole
      cases ups with
      | nil => cases whole
      | cons y ups =>
        have up := layer.covers' y (.head _)
        obtain rfl : spot n y (l+1) = next := (cons.inj whole).1
        rw [areSameLayer,lengthLog (spotValid here layer.large),lengthLog (spotValid up layer.large),spotLog here,spotLog up]
        have := layer.low
        simp only [decide_eq_false_iff_not]
        omega
    constructor
    · intro pair
      unfold paired at pair
      split at pair
      · cases pair
      · rename_i whole
        rw [other _ _ whole] at pair
        simp at pair
    · rintro ⟨_,more,bad⟩
      cases bad
  | cons z rest =>
    have there := layer.covers z (by simp)
    have same : areSameLayer (spot n x l) (spot n z l) = true := by
      rw [areSameLayer,lengthLog (spotValid here layer.large),lengthLog (spotValid there layer.large),spotLog here,spotLog there]
      simp
    have split : listed n l (z::rest) ups = spot n z l::listed n l rest ups := rfl
    rw [split,paired,same,Bool.and_true,Bool.and_eq_true,left,areSiblings,decide_eq_true_eq]
    refine and_congr_right (fun even => ?_)
    have evenSpot : spot n x l % 2 = 0 := by
      have := left.mpr even
      rwa [isLeft,decide_eq_true_eq] at this
    rw [xorOne evenSpot]
    constructor
    · intro next
      refine ⟨rest,?_⟩
      unfold spot place at next
      rw [show z = x+1 by omega]
    · rintro ⟨more,whole⟩
      obtain ⟨rfl,rfl⟩ := cons.inj whole
      rfl

theorem removeFirst : remove (spot n x l::listed n l rest ups) (spot n x l) = listed n l rest ups := by
  have here := layer.covers x (.head _)
  unfold remove
  rw [filter_cons,if_neg (by simp),filter_eq_self.mpr]
  intro idx mem
  simp only [decide_eq_true_eq]
  rcases mem_append.mp mem with inRest | inUps
  · obtain ⟨z,inside,rfl⟩ := mem_map.mp inRest
    intro same
    have equal := (spotInjective (layer.covers z (mem_cons_of_mem x inside)) here same).1
    have := (pairwise_cons.mp layer.sorted).1 z inside
    omega
  · obtain ⟨y,inside,rfl⟩ := mem_map.mp inUps
    intro same
    have := (spotInjective (layer.covers' y inside) here same).2
    omega

end

theorem Layer.skip (layer : Layer n l (x::y::rest) ups) : Layer n l (x::rest) ups := by
  obtain ⟨bound,low,leaves,parents,sorted,upsSorted,above⟩ := layer
  obtain ⟨first,later⟩ := pairwise_cons.mp sorted
  have fewer : ∀ z ∈ x::rest, z ∈ x::y::rest := fun z mem => by
    rcases mem_cons.mp mem with rfl | mem
    · exact .head _
    · exact .tail _ (.tail _ mem)
  exact ⟨bound,low,fun z mem => leaves z (fewer z mem),parents,
    pairwise_cons.mpr ⟨fun z mem => first z (mem_cons_of_mem y mem),(pairwise_cons.mp later).2⟩,upsSorted,
    fun u mem z inside => above u mem z (fewer z inside)⟩

structure Asked (sha : Bytes → Bytes) (values : List Bytes) (db : Db) (leaves originals : List Nat) : Prop where
  hashes : ∀ i m, Stands values.length i m → getHash db ⟨i,m⟩ = some (nodeHash sha values i m)
  within : ∀ j ∈ leaves, j < values.length
  originals : ∀ idx ∈ originals, ∃ j ∈ leaves, idx = spot values.length j 0

section
variable {sha : Bytes → Bytes} {vs : List Bytes} {db : Db} {leaves originals : List Nat}
  (asked : Asked sha vs db leaves originals)
include asked

theorem proverStep (layer : Layer vs.length l (x::rest) ups) (apart : twin x ∉ reached leaves l)
    (alone : paired (spot vs.length x l) (listed vs.length l rest ups) = false) (fuel : Nat) (out : List Bytes) :
    siblingLoop db vs.length (getHeight vs.length) originals (fuel+1) (listed vs.length l (x::rest) ups) out =
      siblingLoop db vs.length (getHeight vs.length) originals fuel (listed vs.length l rest (push ups (x/2)))
        (out ++ needed sha vs leaves l x) := by
  have here := layer.covers x (.head _)
  have fits : x < 2147483648 := by
    have := here.leaf
    have := Nat.le_mul_of_pos_right x (Nat.two_pow_pos l)
    have := layer.bound
    omega
  have split : listed vs.length l (x::rest) ups = spot vs.length x l::listed vs.length l rest ups := rfl
  rw [split,siblingLoop,alone,if_neg (by simp),if_neg (spotNotRoot layer.low),removeFirst layer,layer.insert,
    siblingOfSpot here layer.large fits]
  by_cases inside : twin x*2^l < vs.length
  · obtain ⟨_,stands,_,same⟩ := shownSpec inside
    have hit := shownCovers inside here.layer
    have fresh : spot vs.length (shown vs.length (twin x) l).1 (shown vs.length (twin x) l).2 ∉ originals := by
      intro mem
      obtain ⟨j,asks,equal⟩ := asked.originals _ mem
      have leafCovers : Covers vs.length j 0 := ⟨by simpa using asked.within j asks,by unfold getHeight; omega⟩
      obtain ⟨index,bottom⟩ := spotInjective hit leafCovers equal
      refine apart (mem_map.mpr ⟨j,asks,(same j (asked.within j asks)).mp ?_⟩)
      rw [bottom,index]
      simp
    rw [if_pos inside,if_pos (spotShort hit layer.bound),needed,if_pos ⟨inside,apart⟩]
    simp only [bind,Except.bind,if_neg fresh,asked.hashes _ _ stands,nodeHashShown]
  · rw [if_neg inside,needed,if_neg (fun both => inside both.1),append_nil]
    rfl

theorem proverLayer (layer : Layer vs.length l rest ups) (hit : ∀ x ∈ rest, x ∈ reached leaves l)
    (closed : ∀ x ∈ rest, twin x ∈ reached leaves l → twin x ∈ rest) :
    ∃ rounds, ∀ fuel out, siblingLoop db vs.length (getHeight vs.length) originals (rounds+fuel) (listed vs.length l rest ups) out =
      siblingLoop db vs.length (getHeight vs.length) originals fuel (listed vs.length l [] (upper rest ups))
        (out ++ rest.flatMap (needed sha vs leaves l)) := by
  induction size : rest.length using Nat.strong_induction_on generalizing rest ups with
  | _ size' ih =>
    subst size
    match rest with
    | [] => exact ⟨0,fun fuel out => by simp [upper]⟩
    | x::rest =>
      by_cases pair : paired (spot vs.length x l) (listed vs.length l rest ups) = true
      · obtain ⟨even,more,rfl⟩ := (pairedIff layer).mp pair
        have skipped := layer.skip
        have half : (x+1)/2 = x/2 := by omega
        have twins : twin x = x+1 ∧ twin (x+1) = x := by
          unfold twin
          omega
        have later := fun z mem => (pairwise_cons.mp skipped.sorted).1 z mem
        obtain ⟨rounds,run⟩ := ih more.length (by simp only [length_cons]; omega) skipped.tail
          (fun z mem => hit z (by simp [mem])) (fun z mem seen => by
            have inside := closed z (by simp [mem]) seen
            have above' := (pairwise_cons.mp layer.drop.sorted).1 z mem
            simp only [mem_cons] at inside
            rcases inside with same | same | inside
            · unfold twin at same
              omega
            · unfold twin at same
              omega
            · exact inside) rfl
        refine ⟨rounds+1,fun fuel out => ?_⟩
        have split : listed vs.length l (x::(x+1)::more) ups =
            spot vs.length x l::spot vs.length (x+1) l::listed vs.length l more ups := rfl
        have pair' : paired (spot vs.length x l) (spot vs.length (x+1) l::listed vs.length l more ups) = true := pair
        rw [split,add_right_comm,siblingLoop,if_pos pair',tail_cons,skipped.insert,run]
        have empty : needed sha vs leaves l x = [] ∧ needed sha vs leaves l (x+1) = [] := by
          constructor
          · rw [needed,twins.1,if_neg (fun both => both.2 (hit (x+1) (by simp)))]
          · rw [needed,twins.2,if_neg (fun both => both.2 (hit x (by simp)))]
        rw [flatMap_cons,flatMap_cons,empty.1,empty.2,nil_append,nil_append,upper,upper,foldl_cons,foldl_cons,half,pushTwice]
      · have apart : twin x ∉ reached leaves l := by
          intro seen
          have inside := closed x (.head _) seen
          obtain ⟨first,later⟩ := pairwise_cons.mp layer.sorted
          rcases mem_cons.mp inside with same | inRest
          · unfold twin at same
            omega
          have above := first _ inRest
          have even : x % 2 = 0 ∧ twin x = x+1 := by
            unfold twin at above ⊢
            omega
          refine pair ((pairedIff layer).mpr ⟨even.1,?_⟩)
          cases rest with
          | nil => cases inRest
          | cons z rest =>
            have next := first z (.head _)
            rcases mem_cons.mp inRest with same | deeper
            · exact ⟨rest,by rw [← same,even.2]⟩
            · have := (pairwise_cons.mp later).1 _ deeper
              omega
        obtain ⟨rounds,run⟩ := ih rest.length (by simp) layer.tail (fun z mem => hit z (by simp [mem]))
          (fun z mem seen => by
            have inside := closed z (by simp [mem]) seen
            rcases mem_cons.mp inside with same | inRest
            · refine absurd (hit z (by simp [mem])) ?_
              have back : twin x = z := by
                unfold twin at same ⊢
                omega
              rwa [← back]
            · exact inRest) rfl
        refine ⟨rounds+1,fun fuel out => ?_⟩
        rw [add_right_comm,proverStep asked layer apart (by simpa using pair),run,flatMap_cons,append_assoc]
        rfl

theorem proverRun (layer : Layer vs.length l rest []) (same : ∀ x, x ∈ rest ↔ x ∈ reached leaves l)
    (filled : leaves ≠ []) (top : l+1+layers = getHeight vs.length) :
    ∃ rounds, ∀ fuel out, siblingLoop db vs.length (getHeight vs.length) originals (rounds+fuel+1)
        (listed vs.length l rest []) out = .ok (out ++ neededFrom sha vs leaves layers l rest) := by
  induction layers generalizing l rest with
  | zero =>
    have := layer.low
    omega
  | succ layers ih =>
    obtain ⟨rounds,run⟩ := proverLayer asked layer (fun x mem => (same x).mp mem) (fun x _ seen => (same _).mpr seen)
    have above : ∀ y, y ∈ upper rest [] ↔ y ∈ reached leaves (l+1) := by
      intro y
      rw [memUpper,reachedUp]
      simp only [not_mem_nil,false_or,same]
    by_cases last : layers = 0
    · subst last
      have ne : upper rest [] ≠ [] := by
        intro none
        obtain ⟨j,others,rfl⟩ := exists_cons_of_ne_nil filled
        have mem := (above (j/2^(l+1))).mpr (mem_map.mpr ⟨j,mem_cons_self,rfl⟩)
        rw [none] at mem
        cases mem
      refine ⟨rounds,fun fuel out => ?_⟩
      rw [add_assoc,run (fuel+1),topListed ne layer.upper (by omega),siblingLoop,if_neg (by simp [paired]),if_pos rfl,
        neededFrom,neededFrom,append_nil]
    · obtain ⟨rounds',run'⟩ := ih (layer.upper.next (by omega)) above (by omega)
      refine ⟨rounds+rounds',fun fuel out => ?_⟩
      rw [show rounds+rounds'+fuel+1 = rounds+(rounds'+fuel+1) by omega,run,listedNext,run',neededFrom,append_assoc]

end

end LiskEngine.Rmt
