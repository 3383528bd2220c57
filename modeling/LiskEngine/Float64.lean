import Mathlib.Algebra.Order.Field.Rat
import Mathlib.Data.Rat.Floor
import Mathlib.Tactic.Linarith
import Mathlib.Tactic.FieldSimp
import Mathlib.Tactic.Positivity

/-! Double precision arithmetic as exact arithmetic followed by a rounding that keeps the
integers of 53 bits and errs by at most half a unit in the last place. Overflow and numbers
below the normal ones are not in it. -/
namespace LiskEngine.Float64
open Nat (cast_mul cast_pos)

structure Rounding where
  round : ℚ → ℚ
  exact : ∀ m : ℕ, m ≤ 2 ^ 53 → round m = m
  near : ∀ x, |round x - x| ≤ |x| / 2 ^ 53

def Rounding.exactly : Rounding where
  round x := x
  exact _ _ := rfl
  near x := by
    rw [sub_self,abs_zero]
    positivity

namespace Rounding
variable (r : Rounding)

theorem bounds (pos : 0 < x) : x-x/2^53 ≤ r.round x ∧ r.round x ≤ x+x/2^53 := by
  have close := r.near x
  rw [abs_of_pos pos] at close
  constructor <;> linarith [abs_le.mp close]

theorem ceilBetween {a b q : ℕ} (small : a < 2^32) (above : q*b < a) (below : a ≤ (q+1)*b) : ⌈r.round ((a : ℚ)/b)⌉ = (q : ℤ)+1 := by
  have positive : 0 < b := Nat.pos_of_ne_zero (fun absent => by simp [absent] at below; omega)
  have divisor : (0 : ℚ) < b := by exact_mod_cast positive
  have pos : (0 : ℚ) < a := by exact_mod_cast Nat.zero_lt_of_lt above
  have error : (a : ℚ)/2^53 < 1 := by
    rw [div_lt_one (by positivity)]
    exact_mod_cast small.trans (by norm_num)
  have scaled : (a : ℚ)/b/2^53*b = a/2^53 := by field_simp
  have whole : (a : ℚ)/b*b = a := div_mul_cancel₀ _ divisor.ne'
  obtain ⟨low,high⟩ := r.bounds (div_pos pos divisor)
  rw [Int.ceil_eq_iff]
  push_cast
  constructor
  · have next : (q : ℚ)*b+1 ≤ a := by exact_mod_cast above
    refine lt_of_lt_of_le ?_ low
    refine lt_of_mul_lt_mul_right ?_ divisor.le
    linarith
  · rcases below.eq_or_lt with same | smaller
    · have exactly : (a : ℚ)/b = ((q+1 : ℕ) : ℚ) := by
        rw [same,cast_mul,mul_div_cancel_right₀ _ divisor.ne']
      have bounded : q+1 ≤ 2^53 := by
        have : q+1 ≤ a := same ▸ Nat.le_mul_of_pos_right _ positive
        omega
      rw [exactly,r.exact _ bounded]
      push_cast
      exact le_refl _
    · have next : (a : ℚ)+1 ≤ (q+1)*b := by exact_mod_cast smaller
      refine high.trans (le_of_mul_le_mul_right ?_ divisor)
      rw [add_mul,whole,scaled]
      linarith

theorem ceilSmall (pos : 0 < x) (smaller : x ≤ 1/2) : ⌈r.round x⌉ = 1 := by
  obtain ⟨low,high⟩ := r.bounds pos
  rw [Int.ceil_eq_iff]
  push_cast
  constructor
  · refine lt_of_lt_of_le ?_ low
    rw [sub_self,sub_pos]
    exact div_lt_self pos (by norm_num)
  · linarith [div_le_self pos.le (by norm_num : (1 : ℚ) ≤ 2^53)]

theorem ceilQuotient {a b : ℕ} (small : a < 2^32) (pos : 0 < a) (positive : 0 < b) :
    ⌈r.round (r.round a/r.round b)⌉ = ((a-1)/b : ℕ)+1 := by
  rw [r.exact a (by omega)]
  rcases le_or_gt b (2^53) with exactly | large
  · rw [r.exact b exactly]
    refine r.ceilBetween small ?_ ?_
    · have := Nat.div_mul_le_self (a-1) b
      omega
    · have := Nat.lt_mul_div_succ (a-1) positive
      rw [mul_comm] at this
      omega
  · have low := (r.bounds (cast_pos.mpr positive)).1
    have divisor : (2^52 : ℚ) ≤ r.round b := by
      have : (2^53 : ℚ) ≤ b := by exact_mod_cast large.le
      linarith
    have dividend : (a : ℚ) ≤ 2^32 := by exact_mod_cast small.le
    rw [Nat.div_eq_of_lt (by omega),r.ceilSmall]
    · rfl
    · exact div_pos (cast_pos.mpr pos) (by linarith)
    · rw [div_le_iff₀ (by linarith)]
      linarith

end Rounding

end LiskEngine.Float64
