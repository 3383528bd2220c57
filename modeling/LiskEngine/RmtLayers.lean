import LiskEngine.Rmt

/-! Positions of the regular Merkle tree. The computed layers hold the positions that
stand in the tree, an index is a position written behind a leading one, and the sibling
of a position is the node that its twin shows. -/
namespace LiskEngine.Rmt
open SplitTree List

def width (n l : Nat) : Nat := n / 2 ^ l + if 2 ^ l / 2 < n % 2 ^ l then 1 else 0

theorem standsWidth : Stands n i l ↔ i < width n l := by
  have pos := Nat.two_pow_pos l
  have below := Nat.mod_lt n pos
  have parts := Nat.div_add_mod n (2^l)
  unfold Stands width
  generalize n/2^l = q at *
  generalize n % 2^l = r at *
  generalize 2^l = p at *
  rw [← parts,Nat.mul_comm p q]
  rcases Nat.lt_trichotomy i q with smaller | rfl | more
  · have := Nat.mul_le_mul_right p (show i+1 ≤ q from smaller)
    rw [Nat.add_mul] at this
    constructor <;> intro _
    · split <;> omega
    · omega
  · split <;> omega
  · have := Nat.mul_le_mul_right p (show q+1 ≤ i from more)
    rw [Nat.add_mul] at this
    split <;> omega

theorem layerLoopSucc (l : Nat) (state : Nat × Nat) : layerLoop (l+1) state = layerLoop 1 (layerLoop l state) := by
  obtain ⟨max,r⟩ := state
  induction l generalizing max r with
  | zero => rfl
  | succ l ih => exact ih _ _

theorem layerLoopWidth (n l : Nat) : (layerLoop l (n,0)).1 = width n l ∧
    ((layerLoop l (n,0)).2 % 2 = 0 ↔ n % 2^l = 0 ∨ 2^l/2 < n % 2^l) := by
  induction l with
  | zero => simp [layerLoop,width,Nat.mod_one]
  | succ l ih =>
    obtain ⟨max,parity⟩ := ih
    rw [layerLoopSucc]
    generalize layerLoop l (n,0) = state at *
    obtain ⟨m,r⟩ := state
    subst max
    have pos := Nat.two_pow_pos l
    have below := Nat.mod_lt n pos
    have rest : n % 2^(l+1) = n % 2^l+2^l*(n/2^l % 2) := by rw [pow_succ,Nat.mod_mul]
    have halved : n/2^(l+1) = n/2^l/2 := by rw [pow_succ,Nat.div_div_eq_div_mul]
    simp only [layerLoop,width,halfSucc,halved,rest]
    generalize n/2^l = q at *
    generalize n % 2^l = rem at *
    generalize 2^l = p at *
    rcases Nat.mod_two_eq_zero_or_one q with even | odd
    · rw [even,mul_zero]
      constructor
      · split <;> split <;> split <;> omega
      · split <;> omega
    · rw [odd,mul_one]
      constructor
      · split <;> split <;> split <;> omega
      · split <;> omega

theorem layerStructureGet {size l} (low : l < getHeight size) : (getLayerStructure size)[l]? = some (width size l) := by
  simp [getLayerStructure,low,(layerLoopWidth size l).1]

theorem siblingDownShown {size node l} (low : l < getHeight size) (small : node*2^l < 18446744073709551616) :
    siblingDown (getLayerStructure size) node l = .ok ⟨(shown size node l).1,(shown size node l).2⟩ := by
  induction l generalizing node with
  | zero =>
    rw [siblingDown,layerStructureGet low]
    rfl
  | succ l ih =>
    rw [siblingDown,layerStructureGet low]
    simp only [shown,standsWidth]
    by_cases stands : node < width size (l+1)
    · rw [if_neg (by omega),if_pos stands]
    have down : 2*node*2^l = node*2^(l+1) := by ring
    have fits : 2*node < 18446744073709551616 := lt_of_le_of_lt (Nat.le_mul_of_pos_right _ (Nat.two_pow_pos l)) (by omega)
    rw [if_pos (by omega),if_neg stands,u64Small fits]
    exact ih (by omega) (by omega)

theorem shownOutside (out : n ≤ i*2^l) : shown n i l = (i*2^l,0) := by
  induction l generalizing i with
  | zero => simp [shown]
  | succ l ih =>
    have down : 2*i*2^l = i*2^(l+1) := by ring
    rw [shown,if_neg,ih (by omega),down]
    intro stands
    have := standsCovers stands
    omega

def twin (i : Nat) : Nat := i / 2 * 2 + (i + 1) % 2

theorem rightSibling {size i l} (low : l < getHeight size) (small : twin i*2^l < 18446744073709551616) : getRightSiblingInfo i l size =
      .ok (if twin i*2^l < size then some ⟨(shown size (twin i) l).1,(shown size (twin i) l).2⟩ else none) := by
  have hit := siblingDownShown low small
  unfold twin at *
  simp only [getRightSiblingInfo,hit,bind,Except.bind]
  split
  · rename_i out
    rw [if_neg]
    intro covers
    obtain ⟨_,stands,_⟩ := shownSpec covers
    have := lt_of_le_of_lt (Nat.le_mul_of_pos_right _ (Nat.two_pow_pos _)) (standsCovers stands)
    omega
  · rename_i lt
    rw [if_pos]
    by_contra out
    rw [shownOutside (by omega)] at lt
    omega

def digitsOf : Nat → Nat → List Char
  | 0, _ => []
  | k + 1, i => digitsOf k (i / 2) ++ [(i % 2).digitChar]

theorem digitsOfLength (k i : Nat) : (digitsOf k i).length = k := by
  induction k generalizing i with
  | zero => rfl
  | succ k ih => simp [digitsOf,ih]

theorem toDigitsPlace (low : i < 2^k) : Nat.toDigits 2 (2^k+i) = '1'::digitsOf k i := by
  induction k generalizing i with
  | zero =>
    obtain rfl : i = 0 := by omega
    rfl
  | succ k ih =>
    rw [pow_succ] at low ⊢
    rw [Nat.toDigits_of_base_le (by decide) (by omega),show (2^k*2+i)/2 = 2^k+i/2 by omega,
      show (2^k*2+i) % 2 = i % 2 by omega,ih (by omega)]
    rfl

theorem digitsOfZero (k : Nat) : digitsOf k 0 = List.replicate k '0' := by
  induction k with
  | zero => rfl
  | succ k ih =>
    rw [replicate_succ',digitsOf,Nat.zero_div,ih]
    rfl

theorem toDigitsPadded (low : i < 2^(k+1)) :
    List.replicate (k+1-(Nat.toDigits 2 i).length) '0' ++ Nat.toDigits 2 i = digitsOf (k+1) i := by
  induction k generalizing i with
  | zero =>
    rw [Nat.toDigits_of_lt_base (by omega)]
    simp [digitsOf,Nat.mod_eq_of_lt (show i < 2 by omega)]
  | succ k ih =>
    by_cases digit : i < 2
    · rw [Nat.toDigits_of_lt_base digit,digitsOf,Nat.div_eq_of_lt digit,digitsOfZero,Nat.mod_eq_of_lt digit]
      rfl
    · rw [pow_succ] at low
      rw [Nat.toDigits_of_base_le (by decide) (by omega),digitsOf,← ih (i := i/2) (by omega)]
      simp

theorem digitBinary (i : Nat) : (i % 2).digitChar = '0' ∧ i % 2 = 0 ∨ (i % 2).digitChar = '1' ∧ i % 2 = 1 := by
  rcases Nat.mod_two_eq_zero_or_one i with even | odd
  · exact .inl ⟨by rw [even]; rfl,even⟩
  · exact .inr ⟨by rw [odd]; rfl,odd⟩

theorem digitsOfBinary (k i : Nat) : ∀ c ∈ digitsOf k i, c = '0' ∨ c = '1' := by
  induction k generalizing i with
  | zero => simp [digitsOf]
  | succ k ih =>
    intro c mem
    rcases mem_append.mp mem with front | last
    · exact ih _ c front
    rw [mem_singleton.mp last]
    rcases digitBinary i with ⟨same,_⟩ | ⟨same,_⟩
    · exact .inl same
    · exact .inr same

theorem digitsOfValue (low : i < 2^k) (base : Nat) :
    (digitsOf k i).foldl (fun acc c => 2*acc+if c = '1' then 1 else 0) base = base*2^k+i := by
  induction k generalizing i with
  | zero =>
    obtain rfl : i = 0 := by omega
    simp [digitsOf]
  | succ k ih =>
    rw [digitsOf,foldl_append,ih (by omega),foldl_cons,foldl_nil,pow_succ,show base*(2^k*2) = 2*(base*2^k) by ring]
    rcases digitBinary i with ⟨same,bit⟩ | ⟨same,bit⟩
    · rw [same,if_neg (by decide)]
      omega
    · rw [same,if_pos rfl]
      omega

theorem parseDigits (filled : digits ≠ []) (binary : ∀ c ∈ digits, c = '0' ∨ c = '1') :
    parseInt digits = if digits.foldl (fun acc c => 2*acc+if c = '1' then 1 else 0) 0 < 2147483648
      then .ok (digits.foldl (fun acc c => 2*acc+if c = '1' then 1 else 0) 0) else .error .parseRange := by
  unfold parseInt
  rw [if_neg]
  rintro (absent | other)
  · exact filled absent
  obtain ⟨c,mem,bad⟩ := any_eq_true.mp other
  simp only [ne_eq,decide_eq_true_eq] at bad
  rcases binary c mem with same | same
  · exact bad.1 same
  · exact bad.2 same

def place (height i l : Nat) : Nat := 2 ^ (height - l) + i

section
variable {height i l : Nat} (low : l < height) (inside : i < 2 ^ (height - l))
include low inside

omit low in
theorem formatPlace (small : place height i l < 9223372036854775808) : formatInt (place height i l) = '1'::digitsOf (height-l) i := by
  rw [formatInt,if_pos small]
  exact toDigitsPlace inside

omit low in
theorem lengthPlace (small : place height i l < 9223372036854775808) : length (place height i l) = height-l+1 := by
  rw [length,formatPlace inside small,length_cons,digitsOfLength]

theorem newNodeLocationPlace (small : place height i l < 9223372036854775808) :
    newNodeLocation (place height i l) height = if i < 2147483648 then .ok ⟨i,l⟩ else .error .parseRange := by
  obtain ⟨k,digits⟩ : ∃ k, height - l = k+1 := ⟨height - l - 1,by omega⟩
  unfold newNodeLocation
  rw [formatPlace inside small,digits]
  rw [digits] at inside
  have filled : digitsOf (k+1) i ≠ [] := by simp [digitsOf]
  simp only [parseDigits filled (digitsOfBinary _ _),digitsOfValue inside,zero_mul,zero_add,digitsOfLength]
  split
  · simp only [bind,Except.bind]
    rw [if_neg (by omega)]
    congr 2
    omega
  · rfl

theorem indexPlace (small : i < 9223372036854775808) :
    NodeLocation.index ⟨i,l⟩ height = if place height i l < 2147483648 then .ok (place height i l) else .error .parseRange := by
  obtain ⟨k,digits⟩ : ∃ k, height - l = k+1 := ⟨height - l - 1,by omega⟩
  unfold NodeLocation.index place
  rw [digits] at inside
  simp only [if_neg (show ¬height = l by omega),formatInt,if_pos small,digits,toDigitsPadded inside]
  rw [parseDigits (by simp)]
  · simp only [foldl_cons,if_true,mul_zero,zero_add,digitsOfValue inside,one_mul]
  intro c mem
  rcases mem_cons.mp mem with rfl | mem
  · exact .inr rfl
  · exact digitsOfBinary _ _ c mem

end

theorem locationPlace (ok : newNodeLocation idx height = .ok ⟨i,l⟩) : l < height ∧ i < 2^(height-l) ∧ idx = place height i l := by
  unfold newNodeLocation at ok
  split at ok
  · rename_i digits format
    have small : idx < 9223372036854775808 := by
      by_contra large
      rw [formatInt,if_neg large] at format
      cases format
    have positive : idx ≠ 0 := by
      rintro rfl
      cases format
    obtain ⟨rest,split⟩ := Nat.exists_eq_add_of_le (Nat.pow_log_le_self 2 positive)
    have inside : rest < 2^Nat.log 2 idx := by
      have := Nat.lt_pow_succ_log_self (show 1 < 2 by decide) idx
      rw [pow_succ] at this
      omega
    generalize Nat.log 2 idx = k at split inside
    rw [formatInt,if_pos small,split,toDigitsPlace inside] at format
    obtain rfl := (cons.inj format).2
    obtain ⟨node,parsed,ok⟩ := bindOk ok
    rw [digitsOfLength] at ok
    split at ok
    · cases ok
    cases ok
    cases k with
    | zero => cases parsed
    | succ k =>
      rw [parseDigits (by simp [digitsOf]) (digitsOfBinary _ _),digitsOfValue inside] at parsed
      split at parsed
      · cases parsed
        rename_i high _
        have digits : height-(height-(k+1)) = k+1 := by omega
        rw [place,digits,zero_mul,zero_add]
        exact ⟨by omega,inside,split⟩
      · cases parsed
  · cases ok

theorem treeGeometry (n : Nat) (small : n < 2 ^ 29) :
    (∀ l i, l < getHeight n → i < 2 ^ (getHeight n - l) → ∃ idx, NodeLocation.index ⟨i,l⟩ (getHeight n) = .ok idx ∧
      ∀ idx', newNodeLocation idx' (getHeight n) = .ok ⟨i,l⟩ ↔ idx' = idx) ∧
    ∀ l a, l < getHeight n → a * 2 ^ l < n →
      let start := (if a % 2 = 0 then a + 1 else a - 1) * 2 ^ l
      (getRightSiblingInfo a l n = .ok none ↔ n ≤ start) ∧ ∀ data : List Bytes, data.length = n → start < n → ∃ loc,
        getRightSiblingInfo a l n = .ok (some loc) ∧ Part data start ((data.drop start).take (2 ^ l)) ∧
        (∃ count, (getLayerStructure n)[loc.layerIndex]? = some count ∧ loc.nodeIndex < count) ∧
        loc.nodeIndex * 2 ^ loc.layerIndex = start ∧ loc.layerIndex + 1 = getHeight ((data.drop start).take (2 ^ l)).length := by
  have height : getHeight n ≤ 30 := Nat.succ_le_succ ((Nat.clog_le_iff_le_pow (by decide)).mpr small.le)
  refine ⟨fun l i low lt => ?_,fun l a low covers => ?_⟩
  · have power : 2 ^ (getHeight n - l) ≤ 2 ^ 30 := Nat.pow_le_pow_right (by decide) (by omega)
    have fits : place (getHeight n) i l < 2147483648 := by
      unfold place
      omega
    refine ⟨_,(indexPlace low lt (by omega)).trans (if_pos fits),fun idx' => ⟨fun ok => (locationPlace ok).2.2,?_⟩⟩
    rintro rfl
    exact (newNodeLocationPlace low lt (by omega)).trans (if_pos (by omega))
  · intro start
    have sibling : twin a = if a % 2 = 0 then a + 1 else a - 1 := by
      unfold twin
      split <;> omega
    have power : 2 ^ l ≤ 2 ^ 30 := Nat.pow_le_pow_right (by decide) (by omega)
    have fits : twin a * 2 ^ l < 18446744073709551616 := by
      have := Nat.mul_le_mul_right (2 ^ l) (show twin a ≤ a + 1 by unfold twin; omega)
      rw [add_mul] at this
      omega
    have hit := rightSibling low fits
    rw [sibling] at hit
    refine ⟨?_,fun data len lt => ?_⟩
    · rw [hit]
      by_cases lt : start < n
      · rw [if_pos lt]
        exact iff_of_false (by simp) (not_le.mpr lt)
      · rw [if_neg lt]
        exact iff_of_true rfl (not_lt.mp lt)
    · subst len
      obtain ⟨below,stands,place,_⟩ := shownSpec lt
      exact ⟨_,hit.trans (by rw [if_pos lt]),partSpan lt (Nat.lt_succ_iff.mp low),
        ⟨_,layerStructureGet (below.trans_lt low),standsWidth.mp stands⟩,place,congrArg (· + 1) (shownHeight data _ l lt)⟩

theorem treeGeometrySample : ∃ loc, getRightSiblingInfo 0 1 3 = .ok (some loc) ∧ loc.nodeIndex * 2 ^ loc.layerIndex = 2 := by
  obtain ⟨loc,hit,_,_,start,_⟩ := ((treeGeometry 3 (by decide)).2 1 0 (by decide) (by decide)).2 [[],[],[]] rfl (by decide)
  exact ⟨loc,hit,start⟩

end LiskEngine.Rmt
