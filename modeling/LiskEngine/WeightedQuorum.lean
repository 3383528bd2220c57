import Mathlib.Algebra.BigOperators.Group.Finset.Basic
import Mathlib.Algebra.Order.BigOperators.Group.Finset
import Mathlib.Algebra.Order.Group.Nat
import Mathlib.Algebra.Ring.Nat

/-! Weighted voting over a list of members. A key names the first member that
carries it, so a set of keys never weighs more than the members named in it. -/
namespace LiskEngine.WeightedQuorum
open List

section
variable {α κ : Type} [DecidableEq κ] (key : α → κ) (weight : α → Nat)

def keyWeight (members : List α) (k : κ) : Nat :=
  ((members.find? (fun m => key m = k)).map weight).getD 0

def total (members : List α) : Nat := (members.map weight).sum

def setWeight (members : List α) (keys : Finset κ) : Nat := ∑ k ∈ keys, keyWeight key weight members k

theorem keyWeightCons (m : α) (rest : List α) (k : κ) :
    keyWeight key weight (m::rest) k = if key m = k then weight m else keyWeight key weight rest k := by
  unfold keyWeight
  by_cases same : key m = k <;> simp [same]

theorem setWeightLeMembers (mems : List α) (keys : Finset κ) :
    setWeight key weight mems keys ≤ total weight (mems.filter (fun m => key m ∈ keys)) := by
  induction mems generalizing keys with
  | nil => simp [setWeight,keyWeight,total]
  | cons m rest ih =>
    have others : ∀ some : Finset κ, key m ∉ some →
        ∑ k ∈ some, keyWeight key weight (m::rest) k = setWeight key weight rest some := by
      intro some out
      refine Finset.sum_congr rfl (fun k mem => ?_)
      rw [keyWeightCons,if_neg (fun same => out (by rw [same]; exact mem))]
    by_cases inside : key m ∈ keys
    · have smaller : setWeight key weight rest (keys.erase (key m)) ≤ setWeight key weight rest keys :=
        Finset.sum_le_sum_of_subset (Finset.erase_subset _ _)
      have tail := ih keys
      unfold setWeight
      rw [← Finset.add_sum_erase keys _ inside,others _ (Finset.notMem_erase _ _),keyWeightCons,if_pos rfl]
      simp only [total,filter_cons,inside,decide_true,if_true,map_cons,sum_cons] at tail ⊢
      omega
    · rw [setWeight,others keys inside]
      simpa [total,inside] using ih keys

theorem totalFilterLe (mems : List α) (p : α → Bool) : total weight (mems.filter p) ≤ total weight mems :=
  List.Sublist.sum_le_sum ((filter_sublist).map weight) (fun _ _ => Nat.zero_le _)

theorem setWeightLeTotal (mems : List α) (keys : Finset κ) : setWeight key weight mems keys ≤ total weight mems :=
  (setWeightLeMembers key weight mems keys).trans (totalFilterLe weight mems _)

theorem setWeightInsert (mems : List α) {keys} (fresh : k ∉ keys) :
    setWeight key weight mems (insert k keys) = keyWeight key weight mems k+setWeight key weight mems keys :=
  Finset.sum_insert fresh

theorem intersection (mems : List α) (left right : Finset κ) : setWeight key weight mems left+setWeight key weight mems right ≤
      setWeight key weight mems (left ∩ right)+total weight mems := by
  have split : ∑ k ∈ left ∪ right, keyWeight key weight mems k + ∑ k ∈ left ∩ right, keyWeight key weight mems k =
      ∑ k ∈ left, keyWeight key weight mems k + ∑ k ∈ right, keyWeight key weight mems k :=
    Finset.sum_union_inter
  have bound := setWeightLeTotal key weight mems (left ∪ right)
  unfold setWeight at *
  omega

end
end LiskEngine.WeightedQuorum
