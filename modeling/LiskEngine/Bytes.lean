import Mathlib.Order.Basic
import Mathlib.Data.List.Lex
import Mathlib.Algebra.Ring.Nat

/-! Byte strings and the fixed-width arithmetic of the source. Byte strings are
compared lexicographically, a proper prefix first. Machine integers are natural
numbers; `u32` and `u64` stand where the source's arithmetic can wrap. -/
namespace LiskEngine
open List

instance linearOrderUInt8 : LinearOrder UInt8 where
  le_refl _ := UInt8.le_refl _
  le_trans _ _ _ := UInt8.le_trans
  le_antisymm _ _ := UInt8.le_antisymm
  le_total _ _ := UInt8.le_total _ _
  lt_iff_le_not_ge a b := by
    rw [UInt8.lt_iff_toNat_lt,UInt8.le_iff_toNat_le,UInt8.le_iff_toNat_le]
    omega
  toDecidableLE := inferInstance

abbrev Bytes := List UInt8

instance lawfulBytes : LawfulBEq Bytes := inferInstance

def maxUint32 : Nat := 4294967295

def u32 (n : Nat) : Nat := n % 4294967296

def u64 (n : Nat) : Nat := n % 18446744073709551616

theorem u32Small (small : n < 4294967296) : u32 n = n := Nat.mod_eq_of_lt small

theorem u64Small (small : n < 18446744073709551616) : u64 n = n := Nat.mod_eq_of_lt small

theorem u32Lt (n : Nat) : u32 n < 4294967296 := Nat.mod_lt _ (by decide)

theorem bindOk {ε α β : Type} {x} {f : α → Except ε β} {b} (ok : (x >>= f) = .ok b) : ∃ a, x = .ok a ∧ f a = .ok b := by
  cases x with
  | error e => cases ok
  | ok a => exact ⟨a,rfl,ok⟩

theorem thenOk {ε α β : Type} {x a} (ok : x = .ok a) (f : α → Except ε β) : (x >>= f) = f a := by
  rw [ok]
  rfl

theorem bindError {ε α β : Type} {x} {f : α → Except ε β} {e} (failed : x >>= f = .error e) :
    x = .error e ∨ ∃ a, x = .ok a ∧ f a = .error e := by
  cases x with
  | error e' => exact .inl (by cases failed; rfl)
  | ok a => exact .inr ⟨a,rfl,failed⟩

theorem mapMOk {α β ε : Type} {f : α → Except ε β} {xs ys} (each : List.Forall₂ (fun x y => f x = .ok y) xs ys) :
    xs.mapM f = .ok ys := by
  induction each with
  | nil => rfl
  | cons head tail ih => simp [mapM_cons,head,ih,bind,Except.bind,pure,Except.pure]

theorem mapMPure {m : Type → Type} [Monad m] [LawfulMonad m] {α β : Type} {f : α → m β} {xs : List α}
    (each : ∀ x ∈ xs, ∃ y, f x = pure y) : ∃ ys, xs.mapM f = pure ys := by
  induction xs with
  | nil => exact ⟨[],mapM_nil⟩
  | cons x rest ih =>
    obtain ⟨y,head⟩ := each x (.head _)
    obtain ⟨ys,tail⟩ := ih (fun x' mem => each x' (.tail _ mem))
    exact ⟨y::ys,by rw [mapM_cons,head,tail,pure_bind,pure_bind]⟩

end LiskEngine
