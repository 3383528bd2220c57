import Mathlib.Data.List.Basic
import Mathlib.Algebra.Ring.Nat

/-! Binary trees with labelled leaves, listed from left to right with the depth of each
leaf. -/
namespace LiskEngine
open List

inductive LeafTree (α : Type) where
  | tip (a : α)
  | fork (left right : LeafTree α)
  deriving DecidableEq, Repr

namespace LeafTree
variable {α β : Type}

def listed : LeafTree α → Nat → List (α × Nat)
  | tip a, d => [(a, d)]
  | fork l r, d => l.listed (d + 1) ++ r.listed (d + 1)

def depth : LeafTree α → Nat
  | tip _ => 0
  | fork l r => max l.depth r.depth + 1

def fold (merge : α → α → α) : LeafTree α → α
  | tip a => a
  | fork l r => merge (l.fold merge) (r.fold merge)

def map (f : α → β) : LeafTree α → LeafTree β
  | tip a => tip (f a)
  | fork l r => fork (l.map f) (r.map f)

def leaves : LeafTree α → List α
  | tip a => [a]
  | fork l r => l.leaves ++ r.leaves

theorem listedMap (f : α → β) (t : LeafTree α) (d : Nat) : (t.map f).listed d = (t.listed d).map (fun e => (f e.1,e.2)) := by
  induction t generalizing d with
  | tip a => rfl
  | fork l r ihl ihr => simp [map,listed,ihl,ihr]

theorem depthMap (f : α → β) (t : LeafTree α) : (t.map f).depth = t.depth := by
  induction t with
  | tip a => rfl
  | fork l r ihl ihr => simp [map,depth,ihl,ihr]

theorem listedLeaves (t : LeafTree α) (d : Nat) : (t.listed d).map Prod.fst = t.leaves := by
  induction t generalizing d with
  | tip a => rfl
  | fork l r ihl ihr => simp [listed,leaves,ihl,ihr]

theorem listedNonempty (t : LeafTree α) (d : Nat) : t.listed d ≠ [] := by
  induction t generalizing d with
  | tip a => simp [listed]
  | fork l r ihl _ => simp [listed,ihl]

theorem listedTwo (l r : LeafTree α) (d : Nat) : 2 ≤ ((fork l r).listed d).length := by
  have left := length_pos_of_ne_nil (listedNonempty l (d+1))
  have right := length_pos_of_ne_nil (listedNonempty r (d+1))
  rw [listed,length_append]
  omega

theorem listedDepth {t : LeafTree α} {d e} (mem : e ∈ t.listed d) : d ≤ e.2 ∧ e.2 ≤ d+t.depth := by
  induction t generalizing d with
  | tip a =>
    cases mem_singleton.mp mem
    simp [depth]
  | fork l r ihl ihr =>
    simp only [depth]
    rcases mem_append.mp mem with inLeft | inRight
    · have := ihl inLeft
      omega
    · have := ihr inRight
      omega

theorem deepestListed (t : LeafTree α) (d : Nat) : ∃ e ∈ t.listed d, e.2 = d+t.depth := by
  induction t generalizing d with
  | tip a => exact ⟨(a,d),mem_singleton.mpr rfl,rfl⟩
  | fork l r ihl ihr =>
    rcases le_total l.depth r.depth with within | within
    · obtain ⟨e,mem,deep⟩ := ihr (d+1)
      exact ⟨e,mem_append_right _ mem,by simp only [depth]; omega⟩
    · obtain ⟨e,mem,deep⟩ := ihl (d+1)
      exact ⟨e,mem_append_left _ mem,by simp only [depth]; omega⟩

theorem leavesLength {t : LeafTree α} {n} (bound : t.depth ≤ n) : t.leaves.length ≤ 2^n := by
  induction t generalizing n with
  | tip a => exact Nat.one_le_two_pow
  | fork l r ihl ihr =>
    simp only [depth] at bound
    obtain ⟨m,rfl⟩ : ∃ m, n = m+1 := ⟨n - 1,by omega⟩
    have left := ihl (n := m) (by omega)
    have right := ihr (n := m) (by omega)
    simp only [leaves,length_append]
    omega

def mergeLevel (merge : α → α → α) (height : Nat) : List (α × Nat) → List (α × Nat)
  | [] => []
  | [e] => [e]
  | e :: e' :: rest =>
    if e.2 = height then (merge e.1 e'.1, height - 1) :: mergeLevel merge height rest
    else e :: mergeLevel merge height (e' :: rest)

def mergeLevels (merge : α → α → α) : Nat → List (α × Nat) → List (α × Nat)
  | 0, entries => entries
  | height + 1, entries => mergeLevels merge height (mergeLevel merge (height + 1) entries)

def collapse (merge : α → α → α) : Nat → LeafTree α → LeafTree α
  | 0, t => t
  | 1, t => tip (t.fold merge)
  | _ + 2, tip a => tip a
  | n + 2, fork l r => fork (collapse merge (n + 1) l) (collapse merge (n + 1) r)

section
variable (merge : α → α → α)

theorem collapseFold (n : Nat) (t : LeafTree α) : (collapse merge n t).fold merge = t.fold merge := by
  induction n, t using collapse.induct with
  | case1 t | case2 t | case3 n a => rfl
  | case4 n l r ihl ihr => simp only [collapse,fold,ihl,ihr]

theorem collapseDepth (bound : t.depth ≤ n+1) : (collapse merge (n+1) t).depth ≤ n := by
  induction t generalizing n with
  | tip a => cases n <;> simp [collapse,depth]
  | fork l r ihl ihr =>
    cases n with
    | zero => simp [collapse,depth]
    | succ n =>
      simp only [collapse,depth] at bound ⊢
      have left := ihl (n := n) (by omega)
      have right := ihr (n := n) (by omega)
      omega

theorem mergeLevelSkip (other : e.2 ≠ height) (rest : List (α × Nat)) :
    mergeLevel merge height (e::rest) = e::mergeLevel merge height rest := by
  cases rest with
  | nil => rfl
  | cons e' rest => simp [mergeLevel,other]

theorem mergeLevelListed (bound : t.depth ≤ n) (pos : 0 < n) (top : d+n = height) (rest : List (α × Nat)) :
    mergeLevel merge height (t.listed d ++ rest) = (collapse merge n t).listed d ++ mergeLevel merge height rest := by
  induction t generalizing n d rest with
  | tip a =>
    have same : collapse merge n (tip a) = tip a := by
      obtain ⟨m,rfl⟩ : ∃ m, n = m+1 := ⟨n - 1,by omega⟩
      cases m <;> rfl
    rw [same]
    exact mergeLevelSkip merge (by simp only; omega) rest
  | fork l r ihl ihr =>
    simp only [depth] at bound
    obtain ⟨m,rfl⟩ : ∃ m, n = m+1 := ⟨n - 1,by omega⟩
    cases m with
    | zero =>
      cases l with
      | fork _ _ => simp only [depth] at bound; omega
      | tip a =>
        cases r with
        | fork _ _ => simp only [depth] at bound; omega
        | tip b =>
          subst top
          simp [listed,mergeLevel,collapse,fold]
    | succ m =>
      have left := ihl (n := m+1) (d := d+1) (by omega) (by omega) (by omega) (r.listed (d+1) ++ rest)
      have right := ihr (n := m+1) (d := d+1) (by omega) (by omega) (by omega) rest
      rw [listed,append_assoc,left,right]
      simp [collapse,listed,append_assoc]

theorem mergeTop {t : LeafTree α} {n} (within : t.depth ≤ n+1) :
    mergeLevel merge (n+1) (t.listed 0) = (collapse merge (n+1) t).listed 0 := by
  have pass := mergeLevelListed merge within (Nat.succ_pos n) (zero_add _) []
  rwa [append_nil,mergeLevel,append_nil] at pass

theorem mergeLevelsListed {t : LeafTree α} {n} (bound : t.depth ≤ n) : mergeLevels merge n (t.listed 0) = [(t.fold merge,0)] := by
  induction n generalizing t with
  | zero =>
    cases t with
    | tip a => rfl
    | fork l r => simp only [depth] at bound; omega
  | succ n ih => rw [mergeLevels,mergeTop merge bound,ih (collapseDepth merge bound),collapseFold]

end

def Paired (height : Nat) : List (α × Nat) → Prop
  | [] => True
  | [e] => e.2 ≠ height
  | e :: e' :: rest => if e.2 = height then e'.2 = height ∧ Paired height rest else Paired height (e' :: rest)

theorem pairedSkip (other : e.2 ≠ height) (paired : Paired height rest) : Paired height (e::rest) := by
  cases rest with
  | nil => exact other
  | cons e' rest => rwa [Paired,if_neg other]

theorem pairedListed {t : LeafTree α} {n d height} (bound : t.depth ≤ n) (pos : 0 < n) (top : d+n = height) {rest}
    (paired : Paired height rest) : Paired height (t.listed d ++ rest) := by
  induction t generalizing n d rest with
  | tip a => exact pairedSkip (by simp only; omega) paired
  | fork l r ihl ihr =>
    simp only [depth] at bound
    obtain ⟨m,rfl⟩ : ∃ m, n = m+1 := ⟨n - 1,by omega⟩
    cases m with
    | zero =>
      cases l with
      | fork _ _ => simp only [depth] at bound; omega
      | tip a =>
        cases r with
        | fork _ _ => simp only [depth] at bound; omega
        | tip b =>
          subst top
          simpa [listed,Paired] using paired
    | succ m =>
      rw [listed,append_assoc]
      exact ihl (n := m+1) (by omega) (by omega) (by omega)
        (ihr (n := m+1) (by omega) (by omega) (by omega) paired)

theorem pairedTop {t : LeafTree α} {n} (within : t.depth ≤ n+1) : Paired (n+1) (t.listed 0) := by
  simpa using pairedListed within (Nat.succ_pos n) (Nat.zero_add _) (show Paired (n+1) [] from trivial)

end LeafTree
end LiskEngine
