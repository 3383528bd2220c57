import LiskEngine.RmtLayers

/-! The ordered lists of indexes that proofs work through. Below 2^63 an index with more
digits comes first, and indexes of one layer are ordered by their value. -/
namespace LiskEngine.Rmt.Indexes
open List

structure Valid (idx : Nat) : Prop where
  positive : 1 ≤ idx
  small : idx < 9223372036854775808

theorem lengthLog (valid : Valid idx) : length idx = Nat.log 2 idx+1 := by
  have low := Nat.pow_log_le_self 2 (show idx ≠ 0 from Nat.one_le_iff_ne_zero.mp valid.positive)
  have high := Nat.lt_pow_succ_log_self (show 1 < 2 by decide) idx
  have rest : idx-2^Nat.log 2 idx < 2^Nat.log 2 idx := by
    omega
  have whole : place (Nat.log 2 idx) (idx-2^Nat.log 2 idx) 0 = idx := by
    rw [place,Nat.sub_zero]
    omega
  have digits := @lengthPlace (Nat.log 2 idx) (idx-2^Nat.log 2 idx) 0 rest (by rw [whole]; exact valid.small)
  rwa [whole] at digits

theorem lessIff (validA : Valid a) (validB : Valid b) : less a b ↔ Nat.log 2 b < Nat.log 2 a ∨ Nat.log 2 a = Nat.log 2 b ∧ a < b := by
  unfold less
  rw [lengthLog validA,lengthLog validB]
  split
  · rename_i same
    omega
  rename_i differ
  constructor
  · intro below
    have := Nat.log_mono_right (b := 2) (le_of_lt below)
    omega
  · rintro (below | ⟨same,_⟩)
    · by_contra above
      have := Nat.log_mono_right (b := 2) (Nat.le_of_not_lt above)
      omega
    · omega

theorem lessTrans (validA : Valid a) (validB : Valid b) (validC : Valid c) (first : ¬less b a) (second : ¬less c b) : ¬less c a := by
  rw [lessIff validB validA] at first
  rw [lessIff validC validB] at second
  rw [lessIff validC validA]
  omega

def Ordered (arr : List Nat) : Prop := arr.Pairwise (fun a b => ¬less b a)

theorem orderedInsertOrdered (valid : Valid idx) (valids : ∀ a ∈ arr, Valid a) (ordered : Ordered arr) :
    Ordered (arr.orderedInsert (fun i j => ¬less j i) idx) := by
  induction arr with
  | nil => exact pairwise_singleton _ _
  | cons a rest ih =>
    obtain ⟨first,later⟩ := pairwise_cons.mp ordered
    have validA := valids a (.head _)
    have validRest := fun b mem => valids b (mem_cons_of_mem a mem)
    rw [orderedInsert]
    split
    · rename_i before
      refine pairwise_cons.mpr ⟨fun b mem => ?_,ordered⟩
      rcases mem_cons.mp mem with rfl | mem
      · exact before
      · exact lessTrans valid validA (validRest b mem) before (first b mem)
    · rename_i after
      refine pairwise_cons.mpr ⟨fun b mem => ?_,ih validRest later⟩
      rcases (mem_orderedInsert _).mp mem with rfl | mem
      · intro less'
        rw [lessIff valid validA] at less'
        rw [lessIff validA valid] at after
        omega
      · exact first b mem

theorem sortOrdered (valids : ∀ a ∈ arr, Valid a) : Ordered (sort arr) := by
  induction arr with
  | nil => exact List.Pairwise.nil
  | cons a rest ih =>
    have validRest := fun b mem => valids b (mem_cons_of_mem a mem)
    refine orderedInsertOrdered (valids a (.head _)) (fun b mem => ?_) (ih validRest)
    exact validRest b ((mem_insertionSort _).mp mem)

theorem sortPerm (arr : List Nat) : (sort arr).Perm arr := perm_insertionSort _ _

section
variable {arr : List Nat} {idx : Nat} (valid : Valid idx) (valids : ∀ a ∈ arr, Valid a) (ordered : Ordered arr)
include valid valids ordered

theorem findInsertSpec (enough : high-low ≤ fuel) (bounds : low ≤ high ∧ high ≤ arr.length)
    (before : ∀ k a, arr[k]? = some a → k < low → less a idx) (after : ∀ k a, arr[k]? = some a → high ≤ k → less idx a) :
    arr[findInsertLoop arr idx fuel low high]? = some idx ∨
      (∀ k a, arr[k]? = some a → k < findInsertLoop arr idx fuel low high → less a idx) ∧
        ∀ k a, arr[k]? = some a → findInsertLoop arr idx fuel low high ≤ k → less idx a := by
  induction fuel generalizing low high with
  | zero =>
    obtain rfl : low = high := by omega
    exact .inr ⟨before,after⟩
  | succ fuel ih =>
    unfold findInsertLoop
    split
    · rename_i more
      have between : low ≤ low+(high-low+1)/2-1 ∧ low+(high-low+1)/2-1 < high := by omega
      have inside : low+(high-low+1)/2-1 < arr.length := by omega
      have hit := List.getElem?_eq_getElem inside
      generalize low+(high - low+1)/2 - 1 = middle at *
      simp only [hit]
      have validM := valids _ (List.getElem_mem inside)
      have sorted : ∀ (k k' a b : Nat), arr[k]? = some a → arr[k']? = some b → k ≤ k' → ¬less b a := by
        intro k k' a b getA getB le
        obtain ⟨inA,rfl⟩ := List.getElem?_eq_some_iff.mp getA
        obtain ⟨inB,rfl⟩ := List.getElem?_eq_some_iff.mp getB
        rcases eq_or_lt_of_le le with rfl | within
        · intro self
          have validA := valids _ (List.getElem_mem inA)
          rw [lessIff validA validA] at self
          omega
        · exact List.pairwise_iff_getElem.mp ordered k k' inA inB within
      split
      · rename_i same
        exact .inl (by rw [hit,same])
      rename_i other
      split
      · rename_i left
        refine ih (by omega) (by omega) before (fun k a get above => ?_)
        have validA := valids a (List.mem_of_getElem? get)
        have order := sorted middle k _ a hit get above
        rw [lessIff valid validM] at left
        rw [lessIff validA validM] at order
        rw [lessIff valid validA]
        omega
      · rename_i right
        refine ih (by omega) (by omega) (fun k a get below => ?_) after
        have validA := valids a (List.mem_of_getElem? get)
        have order := sorted k middle a _ get hit (by omega)
        rw [lessIff valid validM] at right
        rw [lessIff validM validA] at order
        rw [lessIff validA valid]
        omega
    · exact .inr ⟨fun k a get below => before k a get (by omega),after⟩

theorem insertSpec : insert arr idx = arr ∧ idx ∈ arr ∨ ∃ front back, arr = front ++ back ∧
    insert arr idx = front ++ idx::back ∧ (∀ a ∈ front, less a idx) ∧ ∀ a ∈ back, less idx a := by
  have spec := findInsertSpec valid valids ordered (le_refl (arr.length-0)) ⟨Nat.zero_le _,le_refl arr.length⟩
    (fun k a _ below => absurd below (Nat.not_lt_zero k))
    (fun k a get above => by have := (List.getElem?_eq_some_iff.mp get).1; omega)
  unfold insert findInsertIndex
  generalize findInsertLoop arr idx arr.length 0 arr.length = index at *
  dsimp only
  split
  · rename_i hit
    exact .inl ⟨rfl,List.mem_of_getElem? hit⟩
  rename_i missing
  rcases spec with hit | ⟨before,after⟩
  · exact absurd hit missing
  refine .inr ⟨arr.take index,arr.drop index,(List.take_append_drop _ _).symm,rfl,fun a mem => ?_,fun a mem => ?_⟩
  · obtain ⟨k,get⟩ := List.mem_iff_getElem?.mp mem
    rw [List.getElem?_take] at get
    split at get
    · exact before k a get (by assumption)
    · cases get
  · obtain ⟨k,get⟩ := List.mem_iff_getElem?.mp mem
    rw [List.getElem?_drop] at get
    exact after _ a get (Nat.le_add_right _ _)

end

theorem sumInsertMap (f : Nat → Nat) (arr : List Nat) (idx : Nat) : ((insert arr idx).map f).sum ≤ (arr.map f).sum+f idx := by
  unfold insert
  generalize findInsertIndex arr idx = index
  simp only
  split
  · exact Nat.le_add_right _ _
  · have parts := congrArg (fun arr => (map f arr).sum) (take_append_drop index arr)
    simp only [map_append,sum_append_nat,map_cons,sum_cons] at parts ⊢
    omega

theorem sumInsert (arr : List Nat) (idx : Nat) : (insert arr idx).sum ≤ arr.sum+idx := by
  have mapped := sumInsertMap id arr idx
  rwa [map_id,map_id] at mapped

theorem sumRemove (arr : List Nat) (idx : Nat) : (remove arr idx).sum ≤ arr.sum := by
  induction arr with
  | nil => exact le_refl 0
  | cons a rest ih =>
    unfold remove at *
    rw [filter_cons,sum_cons]
    split
    · rw [sum_cons]
      omega
    · omega

end LiskEngine.Rmt.Indexes
