import LiskEngine.RmtStore

/-! Appending to the regular Merkle tree. The loop over the layers climbs from the new
leaf along the last position of each layer; the location found for a hash of the append
path may be that of an equal subtree, but never one with another parent. -/
namespace LiskEngine.Rmt
open SplitTree List
open Smt (CollisionFree)
open Codec (Normalizer)

variable {sha : Bytes → Bytes} {vs : List Bytes} {value : Bytes}

theorem nodeHashFull {i l} (full : (i+1)*2^l ≤ vs.length) (more : List Bytes) :
    nodeHash sha (vs ++ more) i l = nodeHash sha vs i l := by
  refine nodeCongr (fun j inside => ?_)
  have below : j < vs.length := by
    have := (Nat.div_lt_iff_lt_mul (Nat.two_pow_pos l)).mp (show j/2^l < i+1 by omega)
    omega
  rw [getElem?_append_left below]

theorem lastStands : Stands (n+1) (n/2^(h+1)) (h+1) ↔ n/2^h % 2 = 1 := by
  have pos := Nat.two_pow_pos h
  rw [standsSucc,Nat.lt_succ_iff,← Nat.le_div_iff_mul_le pos,pow_succ,← Nat.div_div_eq_div_mul]
  omega

theorem appendFull (odd : n/2^h % 2 = 1) : (n/2^h-1+1)*2^h ≤ n := by
  have back : n/2^h-1+1 = n/2^h := by
    generalize n/2^h = q at odd ⊢
    omega
  rw [back]
  exact Nat.div_mul_le_self _ _

theorem lastSpine (h : Nat) : nodeHash sha (vs ++ [value]) (vs.length/2^(h+1)) (h+1) =
    if vs.length/2^h % 2 = 1 then branchHash sha (nodeHash sha vs (vs.length/2^h-1) h ++
        nodeHash sha (vs ++ [value]) (vs.length/2^h) h)
    else nodeHash sha (vs ++ [value]) (vs.length/2^h) h := by
  have length : (vs ++ [value]).length = vs.length+1 := by simp
  have halved : vs.length/2^(h+1) = vs.length/2^h/2 := by
    rw [pow_succ,Nat.div_div_eq_div_mul]
  split
  · rename_i odd
    have stands := lastStands.mpr odd
    rw [← length] at stands
    have left : 2*(vs.length/2^(h+1)) = vs.length/2^h-1 := by omega
    have right : 2*(vs.length/2^(h+1))+1 = vs.length/2^h := by omega
    rw [nodeHashBranch stands,right,left,nodeHashFull (appendFull odd),branchHash]
  · rename_i even
    have fallen : ¬Stands (vs ++ [value]).length (vs.length/2^(h+1)) (h+1) := by
      rw [length,lastStands]
      exact even
    rw [nodeHashShort fallen,show 2*(vs.length/2^(h+1)) = vs.length/2^h by omega]

/-- The tables of the tree of some values. A location found for the hash of a full position is
that of the position or of a later one. -/
structure Indexed (sha : Bytes → Bytes) (values : List Bytes) (db : Db) : Prop where
  hashes : ∀ i l, Stands values.length i l → getHash db ⟨i,l⟩ = some (nodeHash sha values i l)
  known : ∀ i l, (i + 1) * 2 ^ l ≤ values.length → ∃ i', i ≤ i' ∧ (i' + 1) * 2 ^ l ≤ values.length ∧
    getLocation db (nodeHash sha values i l) = .ok ⟨i',l⟩ ∧ nodeHash sha values i' l = nodeHash sha values i l

structure Growing (sha : Bytes → Bytes) (values : List Bytes) (value : Bytes) (db : Db) (h : Nat) : Prop where
  hashes : ∀ i l, Stands (values.length + 1) i l → l ≤ h → getHash db ⟨i,l⟩ = some (nodeHash sha (values ++ [value]) i l)
  older : ∀ i l, Stands values.length i l → h < l → getHash db ⟨i,l⟩ = some (nodeHash sha values i l)
  known : ∀ i l, (i + 1) * 2 ^ l ≤ values.length + 1 → l ≤ h ∨ (i + 1) * 2 ^ l ≤ values.length → ∃ i', i ≤ i' ∧
    (i' + 1) * 2 ^ l ≤ values.length + 1 ∧ getLocation db (nodeHash sha (values ++ [value]) i l) = .ok ⟨i',l⟩ ∧
    nodeHash sha (values ++ [value]) i' l = nodeHash sha (values ++ [value]) i l

theorem standsSmall (stands : Stands n i l) (bound : n < 9223372036854775808) : (⟨i,l⟩ : NodeLocation).Small := by
  have first : i < n := lt_of_le_of_lt (Nat.le_mul_of_pos_right _ (Nat.two_pow_pos l)) (standsCovers stands)
  have second : l ≤ n := by
    cases l with
    | zero => omega
    | succ l =>
      have covers := standsSucc.mp stands
      have half : 2^l < n := lt_of_le_of_lt (Nat.le_mul_of_pos_left _ (by omega)) covers
      have := Nat.lt_two_pow_self (n := l)
      omega
  exact ⟨by simp only; omega,by simp only; omega⟩

theorem fullStands (full : (i+1)*2^l ≤ n) : Stands n i l := by
  have pos := Nat.two_pow_pos l
  rw [Nat.add_mul] at full
  unfold Stands
  omega

section
variable {strings : List Bytes} (size : ∀ data, (sha data).length = 32) (free : CollisionFree sha strings)
  (hashed : ∀ s ∈ treeStrings sha (vs ++ [value]), s ∈ strings) (bound : vs.length + 1 < 9223372036854775808)
include size free hashed

theorem sameHashLayer (full : (i+1)*2^l ≤ vs.length+1) (stands : Stands (vs.length+1) j m)
    (same : nodeHash sha (vs ++ [value]) i l = nodeHash sha (vs ++ [value]) j m) : m = l ∧ (j+1)*2^l ≤ vs.length+1 := by
  have length : (vs ++ [value]).length = vs.length+1 := by simp
  have spans := congrArg List.length (nodeInjective size free hashed hashed (by rw [length]; exact standsCovers (fullStands full))
    (by rw [length]; exact standsCovers stands) same)
  unfold Stands at stands
  rw [spanLength,spanLength,length] at spans
  rw [add_mul,one_mul] at full ⊢
  have left : min (2^l) (vs.length+1-i*2^l) = 2^l := min_eq_left (by omega)
  rw [left] at spans
  have upper : 2^l ≤ 2^m := by
    rw [spans]
    exact min_le_left _ _
  have lower : 2^m/2 < 2^l := by
    rw [spans,lt_min_iff]
    exact ⟨Nat.div_lt_self (Nat.two_pow_pos m) (by decide),by omega⟩
  have layer : m = l := by
    have atMost := (Nat.pow_le_pow_iff_right (show 1 < 2 by decide)).mp upper
    by_contra other
    obtain ⟨k,rfl⟩ : ∃ k, m = k+1 := ⟨m - 1,by omega⟩
    rw [halfSucc] at lower
    have := (Nat.pow_lt_pow_iff_right (show 1 < 2 by decide)).mp lower
    omega
  subst layer
  exact ⟨rfl,by have := min_le_right (2^m) (vs.length+1-j*2^m); omega⟩

include bound

theorem saveLast {db m} (stands : Stands (vs.length+1) (vs.length/2^m) m) : (∀ i l, Stands (vs.length+1) i l →
      getHash (saveNode db (nodeHash sha (vs ++ [value]) (vs.length/2^m) m) ⟨vs.length/2^m,m⟩) ⟨i,l⟩ =
        if i = vs.length/2^m ∧ l = m then some (nodeHash sha (vs ++ [value]) i l) else getHash db ⟨i,l⟩) ∧
    ∀ i l, (i+1)*2^l ≤ vs.length+1 → (∃ i', i ≤ i' ∧ (i'+1)*2^l ≤ vs.length+1 ∧
        getLocation db (nodeHash sha (vs ++ [value]) i l) = .ok ⟨i',l⟩ ∧
        nodeHash sha (vs ++ [value]) i' l = nodeHash sha (vs ++ [value]) i l) ∨ (i = vs.length/2^m ∧ l = m) →
      ∃ i', i ≤ i' ∧ (i'+1)*2^l ≤ vs.length+1 ∧
        getLocation (saveNode db (nodeHash sha (vs ++ [value]) (vs.length/2^m) m) ⟨vs.length/2^m,m⟩)
          (nodeHash sha (vs ++ [value]) i l) = .ok ⟨i',l⟩ ∧ nodeHash sha (vs ++ [value]) i' l = nodeHash sha (vs ++ [value]) i l := by
  have small := standsSmall stands bound
  constructor
  · intro i l inside
    rw [getHashSave (nodeHashLength size _ _ _) small (standsSmall inside bound)]
    by_cases same : i = vs.length/2^m ∧ l = m
    · obtain ⟨rfl,rfl⟩ := same
      simp
    rw [if_neg same,if_neg]
    intro equal
    cases equal
    exact same ⟨rfl,rfl⟩
  · intro i l full before
    rw [getLocationSave small (nodeHashLength size _ _ _)]
    by_cases same : nodeHash sha (vs ++ [value]) i l = nodeHash sha (vs ++ [value]) (vs.length/2^m) m
    · obtain ⟨rfl,whole⟩ := sameHashLayer size free hashed full stands same
      refine ⟨vs.length/2^m,?_,whole,by rw [if_pos same],same.symm⟩
      rw [Nat.le_div_iff_mul_le (Nat.two_pow_pos m)]
      have pos := Nat.two_pow_pos m
      rw [add_mul] at full
      omega
    · rw [if_neg same]
      rcases before with hit | ⟨rfl,rfl⟩
      · exact hit
      · exact absurd rfl same

omit size free hashed bound in
theorem fullBefore (stands : Stands (n+1) i l) (other : i ≠ n/2^l) : (i+1)*2^l ≤ n := by
  have pos := Nat.two_pow_pos l
  have covers := standsCovers stands
  have atMost : i ≤ n/2^l := (Nat.le_div_iff_mul_le pos).mpr (by omega)
  exact (Nat.le_div_iff_mul_le pos).mp (by omega)

omit size free hashed bound in
theorem fullLast (full : (i+1)*2^l ≤ n+1) (fresh : ¬(i+1)*2^l ≤ n) : i = n/2^l := by
  have pos := Nat.two_pow_pos l
  rw [Nat.add_mul,Nat.one_mul] at full fresh
  exact ((Nat.div_eq_iff pos).mpr ⟨by omega,by omega⟩).symm

omit size free hashed bound in
theorem standsGrow (stands : Stands n i l) : Stands (n+1) i l := Nat.lt_succ_of_lt stands

omit size free hashed bound in
theorem growSkip (grows : Growing sha vs value db h) (even : vs.length/2^h % 2 ≠ 1) : Growing sha vs value db (h+1) := by
  have fallen : ¬Stands (vs.length+1) (vs.length/2^(h+1)) (h+1) := fun stands => even (lastStands.mp stands)
  refine ⟨fun i l stands low => ?_,fun i l stands high => grows.older i l stands (by omega),fun i l full low => ?_⟩
  · rcases lt_or_ge h l with top | below
    · obtain rfl : l = h+1 := by omega
      have full := fullBefore stands (fun same => fallen (same ▸ stands))
      rw [grows.older i _ (fullStands full) (by omega),nodeHashFull full]
    · exact grows.hashes i l stands below
  · refine grows.known i l full ?_
    by_contra neither
    obtain ⟨high,fresh⟩ := not_or.mp neither
    obtain rfl : l = h+1 := by omega
    exact fallen (fullLast full fresh ▸ fullStands full)

theorem growSave (grows : Growing sha vs value db h) (odd : vs.length/2^h % 2 = 1) :
    Growing sha vs value (saveNode db (nodeHash sha (vs ++ [value]) (vs.length/2^(h+1)) (h+1)) ⟨vs.length/2^(h+1),h+1⟩) (h+1) := by
  obtain ⟨hashes,known⟩ := @saveLast sha vs value strings size free hashed bound db (h+1) (lastStands.mpr odd)
  refine ⟨fun i l stands low => ?_,fun i l stands high => ?_,fun i l full low => known i l full ?_⟩
  · rw [hashes i l stands]
    split
    · rfl
    rename_i other
    rcases lt_or_ge h l with top | below
    · obtain rfl : l = h+1 := by omega
      have full := fullBefore stands (fun same => other ⟨same,rfl⟩)
      rw [grows.older i _ (fullStands full) (by omega),nodeHashFull full]
    · exact grows.hashes i l stands below
  · rw [hashes i l (standsGrow stands),if_neg (fun same => by omega)]
    exact grows.older i l stands (by omega)
  · by_cases before : l ≤ h ∨ (i+1)*2^l ≤ vs.length
    · exact .inl (grows.known i l full before)
    · obtain ⟨high,fresh⟩ := not_or.mp before
      obtain rfl : l = h+1 := by omega
      exact .inr ⟨fullLast full fresh,rfl⟩

omit free hashed bound in
theorem growDel (long : old.length = 32) (grows : Growing sha vs value db h) : Growing sha vs value (db.del old) h := by
  refine ⟨fun i l stands low => ?_,fun i l stands high => ?_,fun i l full low => ?_⟩
  · rw [getHashDel long]
    exact grows.hashes i l stands low
  · rw [getHashDel long]
    exact grows.older i l stands high
  · rw [getLocationDel long (nodeHashLength size _ _ _)]
    exact grows.known i l full low

omit size free hashed bound in
theorem appendLocation (grows : Growing sha vs value db h) (odd : vs.length/2^h % 2 = 1) :
    ∃ i', getLocation db (nodeHash sha vs (vs.length/2^h-1) h) = .ok ⟨i',h⟩ ∧ i'/2 = vs.length/2^(h+1) := by
  have pos := Nat.two_pow_pos h
  have full := appendFull odd
  obtain ⟨i',above,whole,hit,_⟩ := grows.known (vs.length/2^h - 1) h (by omega) (.inr full)
  rw [nodeHashFull full] at hit
  refine ⟨i',hit,?_⟩
  have atMost : i' ≤ vs.length/2^h := by
    rw [Nat.le_div_iff_mul_le pos]
    rw [Nat.add_mul] at whole
    omega
  rw [pow_succ,← Nat.div_div_eq_div_mul]
  omega

end

def pathFrom (sha : Bytes → Bytes) (values : List Bytes) (h layers : Nat) : List Bytes :=
  ((List.range' h layers).filter values.length.testBit).map (fun h => nodeHash sha values (values.length / 2 ^ h - 1) h)

theorem bitSet (n h : Nat) : n.testBit h = true ↔ n/2^h % 2 = 1 := by
  rw [Nat.testBit_eq_decide_div_mod_eq,decide_eq_true_eq]

theorem pathFromSucc (h layers : Nat) : pathFrom sha vs h (layers+1) =
    (if vs.length/2^h % 2 = 1 then [nodeHash sha vs (vs.length/2^h-1) h] else []) ++ pathFrom sha vs (h+1) layers := by
  unfold pathFrom
  rw [range'_succ,filter_cons]
  by_cases set : vs.length/2^h % 2 = 1
  · rw [if_pos ((bitSet _ _).mpr set),if_pos set]
    rfl
  · rw [if_neg (fun bit => set ((bitSet _ _).mp bit)),if_neg set]
    rfl

section
variable {strings : List Bytes} (size : ∀ data, (sha data).length = 32) (free : CollisionFree sha strings)
  (hashed : ∀ s ∈ treeStrings sha (vs ++ [value]), s ∈ strings) (bound : vs.length + 1 < 9223372036854775808)
include size free hashed bound

theorem appendLoopGrows {count} (grows : Growing sha vs value db h) (rest : appendPath.drop count = pathFrom sha vs h layers) :
    ∃ db', RegularMerkleTree.appendLoop sha appendPath vs.length (getHeight vs.length) layers h count
        (nodeHash sha (vs ++ [value]) (vs.length/2^h) h) db =
          .ok (nodeHash sha (vs ++ [value]) (vs.length/2^(h+layers)) (h+layers),db') ∧ Growing sha vs value db' (h+layers) := by
  induction layers generalizing h count db with
  | zero => exact ⟨db,rfl,grows⟩
  | succ layers ih =>
    rw [pathFromSucc] at rest
    rw [RegularMerkleTree.appendLoop,show h+(layers+1) = h+1+layers by omega]
    have spine := @lastSpine sha vs value h
    by_cases odd : vs.length/2^h % 2 = 1
    · rw [if_pos odd] at rest spine ⊢
      have head : appendPath[count]? = some (nodeHash sha vs (vs.length/2^h-1) h) := by
        rw [← head?_drop,rest]
        rfl
      have tail : appendPath.drop (count+1) = pathFrom sha vs (h+1) layers := by
        rw [← tail_drop,rest]
        rfl
      obtain ⟨i',hit,parent⟩ := appendLocation grows odd
      rw [head]
      simp only [hit,bind,Except.bind,parent,← spine]
      by_cases top : h+1 = getHeight vs.length-1
      · have layer : Nat.clog 2 vs.length = h+1 := by
          unfold getHeight at top
          omega
        have most : 1 < vs.length := by
          by_contra one
          rw [Nat.clog_of_right_le_one (by omega)] at layer
          omega
        have half := Nat.pow_pred_clog_lt_self (show 1 < 2 by decide) most
        rw [layer,Nat.pred_succ] at half
        have whole := Nat.le_pow_clog (show 1 < 2 by decide) vs.length
        rw [layer] at whole
        have first : vs.length/2^(h+1) = 0 := by
          have : vs.length/2^(h+1) = vs.length/2^h/2 := by rw [pow_succ,Nat.div_div_eq_div_mul]
          have : vs.length/2^h ≤ 2 := Nat.div_le_of_le_mul (by rw [pow_succ] at whole; omega)
          omega
        have old := grows.older (vs.length/2^(h+1)) (h+1)
          (by rw [first,standsSucc,mul_zero,zero_add,one_mul]; exact half) (by omega)
        rw [if_pos top,replaceNode,old]
        exact ih (growSave size free hashed bound (growDel size (nodeHashLength size _ _ _) grows) odd) tail
      · rw [if_neg top]
        exact ih (growSave size free hashed bound grows odd) tail
    · rw [if_neg odd] at rest spine ⊢
      rw [← spine]
      exact ih (growSkip grows odd) rest

end

def subtreeRoots (sha : Bytes → Bytes) (values : List Bytes) : List Bytes :=
  ((List.range values.length.size).filter values.length.testBit).map (fun h =>
    calculateRoot sha ((values.drop ((values.length / 2 ^ h - 1) * 2 ^ h)).take (2 ^ h)))

theorem pathFromNone (high : vs.length < 2^h) (layers : Nat) : pathFrom sha vs h layers = [] := by
  induction layers generalizing h with
  | zero => rfl
  | succ layers ih =>
    rw [pathFromSucc,if_neg (by rw [Nat.div_eq_of_lt high]; decide),
      ih (lt_of_lt_of_le high (Nat.pow_le_pow_right (by decide) (Nat.le_succ h)))]
    rfl

theorem pathFromSplit (h layers more : Nat) :
    pathFrom sha vs h (layers+more) = pathFrom sha vs h layers ++ pathFrom sha vs (h+layers) more := by
  induction layers generalizing h with
  | zero => simp [pathFrom]
  | succ layers ih =>
    rw [show layers+1+more = layers+more+1 by omega,pathFromSucc,pathFromSucc,ih,
      show h+1+layers = h+(layers+1) by omega,append_assoc]

theorem subtreeRootsFrom (enough : vs.length < 2^layers) : subtreeRoots sha vs = pathFrom sha vs 0 layers := by
  have low := Nat.size_le.mpr enough
  obtain ⟨more,rfl⟩ := Nat.exists_eq_add_of_le low
  have absent : pathFrom sha vs (0+vs.length.size) more = [] := pathFromNone (by rw [Nat.zero_add]; exact Nat.lt_size_self _) more
  rw [pathFromSplit,absent,append_nil,subtreeRoots,pathFrom,range_eq_range']
  rfl

theorem subtreeRootsNone : subtreeRoots sha [] = [] := by
  rfl

theorem subtreeRootsOne (value : Bytes) : subtreeRoots sha [value] = [leafHash sha value] := by
  have bits : (range (Nat.size 1)).filter (Nat.testBit 1) = [0] := by decide +kernel
  rw [subtreeRoots,length_singleton,bits]
  rfl

theorem heightEnough (n : Nat) : n < 2^getHeight n := by
  have top := Nat.le_pow_clog (show 1 < 2 by decide) n
  have pos := Nat.two_pow_pos (Nat.clog 2 n)
  unfold getHeight
  omega

theorem subTreeLoopSpec (n layers t : Nat) : let hit := RegularMerkleTree.subTreeLoop n layers t
    t ≤ hit ∧ (∀ h, t ≤ h → h < hit → n/2^h % 2 = 1) ∧ (n/2^hit % 2 ≠ 1 ∨ hit = t+layers) := by
  induction layers generalizing t with
  | zero => exact ⟨le_refl _,fun h low high => absurd (lt_of_le_of_lt low high) (lt_irrefl _),Or.inr rfl⟩
  | succ layers ih =>
    unfold RegularMerkleTree.subTreeLoop
    split
    · rename_i set
      obtain ⟨low,ones,stop⟩ := ih (t+1)
      refine ⟨by omega,fun h first last => ?_,by omega⟩
      rcases eq_or_lt_of_le first with rfl | later
      · exact set
      · exact ones h later last
    · rename_i clear
      exact ⟨le_refl _,fun h low high => absurd (lt_of_le_of_lt low high) (lt_irrefl _),Or.inl clear⟩

theorem halfDiv (m l : Nat) : m/2^(l+1) = m/2^l/2 := by
  rw [pow_succ,Nat.div_div_eq_div_mul]

theorem roundedUp : (m/2^l % 2 = 1 → (m/2^l+1)*2^l = (m/2^(l+1)+1)*2^(l+1)) ∧
    (m/2^l % 2 = 0 → (m/2^l+1)*2^l+2^l = (m/2^(l+1)+1)*2^(l+1)) := by
  rw [halfDiv,pow_succ,show (m/2^l/2+1)*(2^l*2) = (m/2^l/2*2+2)*2^l by ring]
  generalize m/2^l = q
  constructor
  · intro odd
    rw [show q/2*2+2 = q+1 by omega]
  · intro even
    rw [show q/2*2+2 = q+1+1 by omega,add_mul (q+1),one_mul]

theorem onesCarry {m t : Nat} (ones : ∀ h < t, m/2^h % 2 = 1) : (m+1)/2^t = m/2^t+1 ∧ (m/2^t+1)*2^t = m+1 := by
  induction t with
  | zero => simp
  | succ t ih =>
    obtain ⟨quotient,whole⟩ := ih (fun h low => ones h (by omega))
    have odd := ones t (Nat.lt_succ_self t)
    refine ⟨?_,(roundedUp.1 odd).symm.trans whole⟩
    rw [halfDiv,halfDiv,quotient]
    omega

theorem pathFold (t : Nat) : (pathFrom sha vs 0 t).foldl (fun currentHash h => branchHash sha (h ++ currentHash))
    (nodeHash sha (vs ++ [value]) vs.length 0) = nodeHash sha (vs ++ [value]) (vs.length/2^t) t := by
  induction t with
  | zero => simp [pathFrom]
  | succ t ih =>
    rw [pathFromSplit,foldl_append,ih,pathFromSucc,lastSpine,zero_add]
    split <;> simp [pathFrom]

theorem pathOnes {t} (ones : ∀ h < t, vs.length/2^h % 2 = 1) : (pathFrom sha vs 0 t).length = t := by
  unfold pathFrom
  rw [length_map,filter_eq_self.mpr,length_range']
  intro h mem
  exact (bitSet _ _).mpr (ones h (by simpa using mem))

theorem pathSame (same : (vs.length+1)/2^h = vs.length/2^h) (layers : Nat) :
    pathFrom sha (vs ++ [value]) h layers = pathFrom sha vs h layers := by
  induction layers generalizing h with
  | zero => rfl
  | succ layers ih =>
    rw [pathFromSucc,pathFromSucc,ih (by rw [halfDiv,halfDiv,same]),length_append,length_singleton,same]
    by_cases odd : vs.length/2^h % 2 = 1
    · rw [if_pos odd,if_pos odd,nodeHashFull (appendFull odd)]
    · rw [if_neg odd,if_neg odd]

theorem pathCarried {t} (ones : ∀ h < t, vs.length/2^h % 2 = 1) (clear : vs.length/2^t % 2 ≠ 1) (layers : Nat) :
    pathFrom sha (vs ++ [value]) 0 (t+1+layers) = nodeHash sha (vs ++ [value]) (vs.length/2^t) t::pathFrom sha vs (t+1) layers := by
  have length : (vs ++ [value]).length = vs.length+1 := by simp
  have carry := (onesCarry ones).1
  have below : pathFrom sha (vs ++ [value]) 0 t = [] := by
    unfold pathFrom
    rw [filter_eq_nil_iff.mpr,map_nil]
    intro h mem
    have low : h < t := by simpa using mem
    have odd := ones h low
    rw [bitSet,length,(onesCarry (fun k less => ones k (less.trans low))).1]
    omega
  have above : (vs.length+1)/2^(t+1) = vs.length/2^(t+1) := by
    rw [halfDiv,halfDiv,carry]
    omega
  rw [pathFromSplit,pathFromSplit,below,zero_add,zero_add,pathSame above,pathFromSucc,length,carry,if_pos (by omega)]
  simp [pathFrom]

structure Built (sha : Bytes → Bytes) (text : Normalizer) (values : List Bytes) (d : RegularMerkleTree) : Prop where
  root : d.root = calculateRoot sha values
  path : d.appendPath = subtreeRoots sha values
  size : d.size = values.length
  tables : Indexed sha values d.db
  saved : 2 ≤ values.length → d.db.get [storePrefixInfo] = info.encode text (d.root, d.appendPath, d.size, ())

theorem newBuilt (sha : Bytes → Bytes) (text : Normalizer) : Built sha text [] (RegularMerkleTree.new sha OrderedMap.empty) := by
  refine ⟨rfl,rfl,rfl,⟨fun i l stands => ?_,fun i l full => ?_⟩,fun two => by simp at two⟩
  · simp [Stands] at stands
  · have := Nat.two_pow_pos l
    simp at full

theorem growDone (grows : Growing sha vs value db h) (top : ∀ i l, Stands (vs.length+1) i l → l ≤ h) :
    Indexed sha (vs ++ [value]) db := by
  have length : (vs ++ [value]).length = vs.length+1 := by simp
  refine ⟨fun i l stands => ?_,fun i l full => ?_⟩
  · rw [length] at stands
    exact grows.hashes i l stands (top i l stands)
  · rw [length] at full ⊢
    exact grows.known i l full (.inl (top i l (fullStands full)))

section
variable {strings : List Bytes} (size : ∀ data, (sha data).length = 32) (free : CollisionFree sha strings)
  (hashed : ∀ s ∈ treeStrings sha (vs ++ [value]), s ∈ strings) (bound : vs.length + 1 < 9223372036854775808)

theorem newLeaf : nodeHash sha (vs ++ [value]) vs.length 0 = leafHash sha value := nodeHashLeaf (by simp)

include size free hashed bound

theorem growStart (tables : Indexed sha vs db) : Growing sha vs value (saveNode db (leafHash sha value) ⟨vs.length,0⟩) 0 := by
  have last : vs.length/2^0 = vs.length := by simp
  obtain ⟨hashes,known⟩ := @saveLast sha vs value strings size free hashed bound db 0
    (by rw [last]; exact standsZero.mpr (Nat.lt_succ_self _))
  rw [last,newLeaf] at hashes known
  refine ⟨fun i l stands low => ?_,fun i l stands high => ?_,fun i l full low => known i l full ?_⟩
  · obtain rfl : l = 0 := by omega
    rw [hashes i 0 stands]
    split
    · rfl
    · rename_i other
      have full := fullBefore stands (fun same => other ⟨by rw [same,last],rfl⟩)
      rw [tables.hashes i 0 (fullStands full),nodeHashFull full]
  · rw [hashes i l (standsGrow stands),if_neg (fun same => by omega)]
    exact tables.hashes i l stands
  · by_cases before : (i+1)*2^l ≤ vs.length
    · obtain ⟨i',above,whole,hit,same⟩ := tables.known i l before
      refine .inl ⟨i',above,by omega,?_,?_⟩
      · rw [nodeHashFull before]
        exact hit
      · rw [nodeHashFull before,nodeHashFull whole]
        exact same
    · obtain rfl : l = 0 := by omega
      exact .inr ⟨by rw [fullLast full before,last],rfl⟩

omit size free hashed bound in
theorem subTreeIndexOf (n : Nat) : let t := RegularMerkleTree.subTreeLoop n (getHeight n) 0
    (∀ h < t, n/2^h % 2 = 1) ∧ n/2^t % 2 ≠ 1 := by
  intro t
  obtain ⟨_,ones,stop⟩ := subTreeLoopSpec n (getHeight n) 0
  refine ⟨fun h low => ones h (Nat.zero_le h) low,?_⟩
  rcases stop with clear | top
  · exact clear
  · have high : t = getHeight n := by rw [← zero_add (getHeight _)]; exact top
    rw [high,Nat.div_eq_of_lt (heightEnough n)]
    decide

omit size free hashed bound in
theorem subtreeRootsAppend : let t := RegularMerkleTree.subTreeLoop vs.length (getHeight vs.length) 0
    t ≤ (subtreeRoots sha vs).length ∧ subtreeRoots sha (vs ++ [value]) =
      ((subtreeRoots sha vs).take t).foldl (fun currentHash h => branchHash sha (h ++ currentHash)) (leafHash sha value) ::
        (subtreeRoots sha vs).drop t ∧
      ((subtreeRoots sha vs).take t).foldl (fun currentHash h => branchHash sha (h ++ currentHash)) (leafHash sha value) =
        nodeHash sha (vs ++ [value]) (vs.length/2^t) t := by
  intro t
  have enough := heightEnough vs.length
  obtain ⟨ones,clear⟩ := subTreeIndexOf vs.length
  have more : 2^getHeight vs.length ≤ 2^(t+1+getHeight vs.length) :=
    Nat.pow_le_pow_right (by decide) (Nat.le_add_left _ _)
  have grown : (vs ++ [value]).length < 2^(t+1+getHeight vs.length) := by
    rw [pow_add] at more ⊢
    have : 2 ≤ 2^(t+1) := by rw [pow_succ]; have := Nat.two_pow_pos t; omega
    have := Nat.mul_le_mul_right (2^getHeight vs.length) this
    simp only [length_append,length_singleton]
    omega
  have parts : subtreeRoots sha vs = pathFrom sha vs 0 t ++ pathFrom sha vs (t+1) (getHeight vs.length) := by
    rw [subtreeRootsFrom (lt_of_lt_of_le enough more),pathFromSplit,pathFromSplit,pathFromSucc,zero_add,zero_add,if_neg clear]
    simp [pathFrom]
  have count := @pathOnes sha vs t ones
  refine ⟨by rw [parts,length_append,count]; exact Nat.le_add_right _ _,?_,?_⟩
  · rw [subtreeRootsFrom grown,pathCarried ones clear,parts,take_left' count,drop_left' count,← newLeaf,pathFold]
  · rw [parts,take_left' count,← newLeaf,pathFold]

theorem appendStep (built : Built sha text vs d) : ∃ d', d.append sha text value = .ok d' ∧ Built sha text (vs ++ [value]) d' := by
  have length : (vs ++ [value]).length = vs.length+1 := by simp
  obtain ⟨_,path,count,tables,_⟩ := built
  have start := growStart size free hashed bound tables
  unfold RegularMerkleTree.append
  simp only [count]
  by_cases empty : vs.length = 0
  · obtain rfl := length_eq_zero_iff.mp empty
    refine ⟨_,rfl,rfl,?_,rfl,growDone start (fun i l stands => ?_),fun two => by simp at two⟩
    · rw [path,subtreeRootsNone]
      exact (subtreeRootsOne value).symm
    by_contra high
    obtain ⟨k,rfl⟩ : ∃ k, l = k+1 := ⟨l - 1,by omega⟩
    have covers := standsSucc.mp stands
    have := Nat.mul_pos (show 0 < 2*i+1 by omega) (Nat.two_pow_pos k)
    omega
  · rw [if_neg empty]
    have enough := heightEnough vs.length
    have whole : d.appendPath.drop 0 = pathFrom sha vs 0 (getHeight vs.length) := by
      rw [drop_zero,path,subtreeRootsFrom enough]
    obtain ⟨db',climbed,grown⟩ := appendLoopGrows size free hashed bound start whole
    have top : nodeHash sha (vs ++ [value]) 0 (getHeight vs.length) = calculateRoot sha (vs ++ [value]) :=
      nodeTop (by rw [length]; exact enough)
    rw [Nat.zero_add,Nat.div_eq_of_lt enough,top,Nat.pow_zero,Nat.div_one,newLeaf] at climbed
    obtain ⟨inside,merged,_⟩ := @subtreeRootsAppend sha vs value
    simp only [climbed,bind,Except.bind]
    rw [path,if_neg (by omega),← merged]
    obtain ⟨infoByte,enc,saved⟩ := saveInfoOk text
      ⟨calculateRoot sha (vs ++ [value]),subtreeRoots sha (vs ++ [value]),vs.length+1,db'⟩
    rw [saved]
    have indexed := growDone grown (fun i l stands => by
      rw [zero_add]
      cases l with
      | zero => exact Nat.zero_le _
      | succ l =>
        have half := lt_of_le_of_lt (Nat.le_mul_of_pos_left (2^l) (show 0 < 2*i+1 by omega)) (standsSucc.mp stands)
        exact (Nat.pow_lt_pow_iff_right (show 1 < 2 by decide)).mp (by omega))
    refine ⟨_,rfl,rfl,rfl,length.symm,⟨fun i l stands => ?_,fun i l full => ?_⟩,fun _ => ?_⟩
    · rw [getHashInfo]
      exact indexed.hashes i l stands
    · rw [getLocationInfo]
      exact indexed.known i l full
    · simp only [OrderedMap.getSet,if_true]
      exact enc.symm

end

def appendAll (sha : Bytes → Bytes) (text : Normalizer) (d : RegularMerkleTree) : List Bytes → Except RmtError RegularMerkleTree
  | [] => .ok d
  | value :: rest => do
    let d ← d.append sha text value
    appendAll sha text d rest

def appendStrings (sha : Bytes → Bytes) (values : List Bytes) : List Bytes :=
  (List.range (values.length + 1)).flatMap (fun n => treeStrings sha (values.take n))

theorem appendedStrings {n} (below : n ≤ vs.length) :
    ∀ s ∈ treeStrings sha (vs.take n), s ∈ appendStrings sha vs := fun _ mem =>
  mem_flatMap.mpr ⟨n,mem_range.mpr (Nat.lt_succ_of_le below),mem⟩

theorem appendAllBuilt (size : ∀ data, (sha data).length = 32) (free : CollisionFree sha (appendStrings sha vs))
    (bound : vs.length < 9223372036854775808) (whole : before ++ rest = vs) (built : Built sha text before d) :
    ∃ d', appendAll sha text d rest = .ok d' ∧ Built sha text vs d' := by
  induction rest generalizing before d with
  | nil =>
    rw [append_nil] at whole
    exact ⟨d,rfl,whole ▸ built⟩
  | cons value rest ih =>
    have parts : (before ++ [value]) ++ rest = vs := by simpa using whole
    have count : before.length+1 ≤ vs.length := by
      rw [← parts,length_append,length_append,length_singleton]
      exact Nat.le_add_right _ _
    have front : vs.take (before.length+1) = before ++ [value] := by
      rw [← parts,take_left' (by simp)]
    obtain ⟨d',appended,built'⟩ := appendStep size free (front ▸ appendedStrings count) (by omega) built
    obtain ⟨d'',run,built''⟩ := ih parts built'
    refine ⟨d'',?_,built''⟩
    simp only [appendAll,appended,bind,Except.bind]
    exact run

theorem appendFollowsRoot (sha : Bytes → Bytes) (text : Normalizer) (values : List Bytes) (bound : values.length < 2 ^ 30)
    (size : ∀ data, (sha data).length = 32) (free : CollisionFree sha (appendStrings sha values)) :
    ∃ d, appendAll sha text (RegularMerkleTree.new sha OrderedMap.empty) values = .ok d ∧
      d.root = calculateRoot sha values ∧ d.appendPath = subtreeRoots sha values ∧ d.size = values.length := by
  obtain ⟨d,run,built⟩ := appendAllBuilt size free (by omega) (nil_append values) (newBuilt sha text)
  exact ⟨d,run,built.root,built.path,built.size⟩

def repeatedValues : List Bytes := [[7],[8],[7],[8],[7]]

theorem appendFollowsRootRepeated :
    ∃ d, appendAll Smt.sampleSha ⟨fun _ => true, id, fun _ _ => rfl⟩ (RegularMerkleTree.new Smt.sampleSha OrderedMap.empty)
        repeatedValues = .ok d ∧ d.root = calculateRoot Smt.sampleSha repeatedValues ∧
      d.appendPath = subtreeRoots Smt.sampleSha repeatedValues ∧ d.size = repeatedValues.length :=
  appendFollowsRoot Smt.sampleSha _ repeatedValues (by decide) Smt.sampleShaLength (by decide +kernel)

end LiskEngine.Rmt
