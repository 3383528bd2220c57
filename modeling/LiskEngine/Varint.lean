import LiskEngine.Bytes
import Mathlib.Tactic.IntervalCases

/-! Unsigned base-128 numbers, low digits first, as the standard library of the
source writes them: at most ten bytes for 64 bits. -/
namespace LiskEngine.Varint

/-- The bytes still to write after some were written, `n` of them at most before the last. -/
def putUvarintLoop : Nat → Nat → Bytes
  | 0, x => [UInt8.ofNat x]
  | n + 1, x => if x < 128 then [UInt8.ofNat x] else UInt8.ofNat (x % 128 + 128) :: putUvarintLoop n (x / 128)

def putUvarint (x : Nat) : Bytes := putUvarintLoop 9 x

/-- Signed numbers are folded onto the unsigned ones, the sign in the lowest bit. -/
def putVarint (x : Int) : Bytes := putUvarint (if 0 ≤ x then 2 * x.toNat else 2 * (-x).toNat - 1)

theorem putUvarintLoopLength (n : Nat) (small : x < 2^(7*(n+1))) :
    (putUvarintLoop n x).length ≤ n+1 ∧ x < 2^(7*(putUvarintLoop n x).length) ∧ ((putUvarintLoop n x).length = 1 ∨
        1 < (putUvarintLoop n x).length ∧ 2^(7*((putUvarintLoop n x).length-1)) ≤ x) := by
  induction n generalizing x with
  | zero => exact ⟨by simp [putUvarintLoop],by simpa [putUvarintLoop] using small,Or.inl rfl⟩
  | succ n ih =>
    unfold putUvarintLoop
    split
    · rename_i last
      exact ⟨by simp,by simpa using last,Or.inl rfl⟩
    rename_i more
    have wide : 2^(7*(n+1+1)) = 128*2^(7*(n+1)) := by
      rw [show 7*(n+1+1) = 7+7*(n+1) by omega,Nat.pow_add]
    obtain ⟨short,above,below⟩ := ih (x := x/128) (by omega)
    simp only [List.length_cons,Nat.add_sub_cancel]
    generalize (putUvarintLoop n (x/128)).length = len at short above below ⊢
    have step : 2^(7*(len+1)) = 128*2^(7*len) := by
      rw [show 7*(len+1) = 7+7*len by omega,Nat.pow_add]
    refine ⟨by omega,by omega,Or.inr ?_⟩
    rcases below with one | ⟨many,below⟩
    · subst one; exact ⟨by omega,by omega⟩
    · have lower : 2^(7*len) = 128*2^(7*(len-1)) := by
        rw [show 7*len = 7+7*(len-1) by omega,Nat.pow_add]
      exact ⟨by omega,by omega⟩

theorem putUvarintLoopMore (more : 128 ≤ x) : putUvarintLoop (n+1) x = UInt8.ofNat (x % 128+128)::putUvarintLoop n (x/128) := by
  rw [putUvarintLoop,if_neg (by omega)]

theorem putUvarintLoopPos (n x : Nat) : 0 < (putUvarintLoop n x).length := by
  cases n with
  | zero => simp [putUvarintLoop]
  | succ n => unfold putUvarintLoop; split <;> simp

theorem putUvarintPos (x : Nat) : 0 < (putUvarint x).length := putUvarintLoopPos 9 x

theorem putUvarintLoopShort (n x : Nat) : (putUvarintLoop n x).length ≤ n+1 := by
  induction n generalizing x with
  | zero => simp [putUvarintLoop]
  | succ n ih =>
    unfold putUvarintLoop
    split
    · simp
    · exact Nat.succ_le_succ (ih _)

theorem putUvarintShort (x : Nat) : (putUvarint x).length ≤ 10 := putUvarintLoopShort 9 x

end LiskEngine.Varint
