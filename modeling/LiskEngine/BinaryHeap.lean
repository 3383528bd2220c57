import Mathlib.Data.List.Basic

/-! A binary heap kept in a list, as the heap functions of the standard library keep it. -/
namespace LiskEngine.Heap
open List Option
variable {α : Type}

def swap (h : List α) (i j : Nat) : List α :=
  match h[i]?, h[j]? with
  | some a, some b => (h.set i b).set j a
  | _, _ => h

def lessAt (less : α → α → Bool) (h : List α) (i j : Nat) : Bool :=
  match h[i]?, h[j]? with
  | some a, some b => less a b
  | _, _ => false

def up (less : α → α → Bool) : Nat → List α → Nat → List α
  | 0, h, _ => h
  | fuel + 1, h, j =>
    let i := (j - 1) / 2
    if i = j ∨ !lessAt less h j i then h else up less fuel (swap h i j) i

def down (less : α → α → Bool) (n : Nat) : Nat → List α → Nat → List α
  | 0, h, _ => h
  | fuel + 1, h, i =>
    let j1 := 2 * i + 1
    if n ≤ j1 then h
    else
      let j := if j1 + 1 < n ∧ lessAt less h (j1 + 1) j1 then j1 + 1 else j1
      if !lessAt less h j i then h else down less n fuel (swap h i j) j

def push (less : α → α → Bool) (h : List α) (x : α) : List α := up less (h.length + 1) (h ++ [x]) h.length

/-- An empty heap is an index out of range in the source. -/
def pop (less : α → α → Bool) (h : List α) : Option (α × List α) :=
  let n := h.length - 1
  let h := down less n h.length (swap h 0 n) 0
  h.getLast?.map (fun x => (x, h.dropLast))

def init (less : α → α → Bool) (h : List α) : List α :=
  (List.range (h.length / 2)).reverse.foldl (fun kept i => down less h.length h.length kept i) h

def popMany (less : α → α → Bool) : Nat → List α → Option (List α × List α)
  | 0, h => some ([], h)
  | n + 1, h => do
    let (x, h) ← pop less h
    let (xs, h) ← popMany less n h
    some (x :: xs, h)

variable {less : α → α → Bool}

theorem swapPerm (h : List α) (i j : Nat) : (swap h i j).Perm h := by
  unfold swap
  split
  · rename_i a b first second
    obtain ⟨inside,rfl⟩ := List.getElem?_eq_some_iff.mp first
    obtain ⟨inside',rfl⟩ := List.getElem?_eq_some_iff.mp second
    exact List.set_set_perm inside inside'
  · exact List.Perm.refl h

theorem upPerm (fuel : Nat) (h : List α) (j : Nat) : (up less fuel h j).Perm h := by
  induction fuel generalizing h j with
  | zero => exact List.Perm.refl h
  | succ fuel ih =>
    simp only [up]
    split
    · exact List.Perm.refl h
    · exact (ih _ _).trans (swapPerm h _ _)

theorem downPerm (n fuel : Nat) (h : List α) (i : Nat) : (down less n fuel h i).Perm h := by
  induction fuel generalizing h i with
  | zero => exact List.Perm.refl h
  | succ fuel ih =>
    simp only [down]
    split
    · exact List.Perm.refl h
    generalize (if 2*i+1+1 < n ∧ lessAt less h (2*i+1+1) (2*i+1) then 2*i+1+1 else 2*i+1) = j
    split
    · exact List.Perm.refl h
    · exact (ih _ _).trans (swapPerm h _ _)

theorem pushPerm (h : List α) (x : α) : (push less h x).Perm (x::h) := (upPerm _ _ _).trans (perm_append_singleton x h)

theorem memPush : y ∈ push less h x ↔ y = x ∨ y ∈ h := by
  rw [(pushPerm h x).mem_iff,mem_cons]

theorem memPushAll {xs h : List α} {y} : y ∈ xs.foldl (push less) h ↔ y ∈ xs ∨ y ∈ h := by
  induction xs generalizing h with
  | nil => simp
  | cons x rest ih =>
    rw [foldl_cons,ih,memPush,mem_cons]
    tauto

theorem initPerm (h : List α) : (init less h).Perm h := by
  unfold init
  generalize (range (h.length/2)).reverse = positions
  suffices all : ∀ kept : List α, (positions.foldl (fun kept i => down less h.length h.length kept i) kept).Perm kept from all h
  intro kept
  induction positions generalizing kept with
  | nil => exact List.Perm.refl kept
  | cons i rest ih => exact (ih _).trans (downPerm _ _ kept i)

theorem popPerm (popped : pop less h = some (x,rest)) : (x::rest).Perm h := by
  simp only [pop] at popped
  generalize sunk : down less (h.length-1) h.length (swap h 0 (h.length-1)) 0 = h' at popped
  have same : h'.Perm h := sunk ▸ (downPerm _ _ _ _).trans (swapPerm _ _ _)
  obtain ⟨last,hit,pair⟩ := map_eq_some_iff.mp popped
  cases pair
  have split := dropLast_append_getLast? x hit
  exact ((perm_append_singleton _ _).symm.trans (List.Perm.of_eq split)).trans same

theorem popSome {h} (occupied : h ≠ []) : ∃ x rest, pop less h = some (x,rest) := by
  simp only [pop]
  generalize sunk : down less (h.length-1) h.length (swap h 0 (h.length-1)) 0 = h'
  have same : h'.Perm h := sunk ▸ (downPerm _ _ _ _).trans (swapPerm _ _ _)
  have left : h' ≠ [] := by
    rintro rfl
    exact occupied (nil_perm.mp same)
  exact ⟨_,_,by rw [getLast?_eq_some_getLast left]; rfl⟩

theorem popManyPerm (ok : popMany less n h = some (popped,rest)) : (popped ++ rest).Perm h ∧ popped.length = n := by
  induction n generalizing h popped with
  | zero =>
    cases ok
    exact ⟨List.Perm.refl _,rfl⟩
  | succ n ih =>
    simp only [popMany,bind_eq_bind,bind_eq_some_iff,Prod.exists] at ok
    obtain ⟨x,h',first,xs,h'',later,pair⟩ := ok
    cases pair
    obtain ⟨perm,len⟩ := ih later
    exact ⟨(perm.cons x).trans (popPerm first),by simp [len]⟩

theorem popManySome {n h} (enough : n ≤ h.length) : ∃ popped rest, popMany less n h = some (popped,rest) := by
  induction n generalizing h with
  | zero => exact ⟨[],h,rfl⟩
  | succ n ih =>
    obtain ⟨x,h',first⟩ := @popSome α less h (ne_nil_of_length_pos (by omega))
    have len := (popPerm first).length_eq
    obtain ⟨xs,h'',later⟩ := ih (h := h') (by simp at len; omega)
    exact ⟨x::xs,h'',by simp [popMany,first,later]⟩

end LiskEngine.Heap
