import Mathlib.Data.Nat.Log
import Mathlib.Data.Nat.Size
import Mathlib.Tactic.Ring

/-! Binary trees over a list that are split at the largest power of two below the length. -/
namespace LiskEngine.SplitTree
open List

def divider (n : Nat) : Nat := 2 ^ Nat.log 2 (n - 1)

section
variable {α β : Type} (leaf : α → β) (branch : β → β → β) (empty : β)

def rootLoop : Nat → List α → β
  | _, [] => empty
  | _, [x] => leaf x
  | 0, _ => empty
  | fuel + 1, xs =>
    branch (rootLoop fuel (xs.take (divider xs.length))) (rootLoop fuel (xs.drop (divider xs.length)))

def root (xs : List α) : β := rootLoop leaf branch empty xs.length xs

def span (xs : List α) (i l : Nat) : List α := (xs.drop (i * 2 ^ l)).take (2 ^ l)

def node (xs : List α) (i l : Nat) : β := root leaf branch empty (span xs i l)

end

def Stands (n i l : Nat) : Prop := i * 2 ^ l + 2 ^ l / 2 < n

instance (n i l : Nat) : Decidable (Stands n i l) := by
  unfold Stands
  infer_instance

def shown (n : Nat) : Nat → Nat → Nat × Nat
  | i, 0 => (i, 0)
  | i, l + 1 => if Stands n i (l + 1) then (i, l + 1) else shown n (2 * i) l

theorem dividerPos (n : Nat) : 0 < divider n := Nat.two_pow_pos _

theorem dividerLt (two : 2 ≤ n) : divider n < n := by
  have below := Nat.pow_log_le_self 2 (show n-1 ≠ 0 by omega)
  unfold divider
  omega

theorem dividerOf (low : 2^l < n) (high : n ≤ 2^(l+1)) : divider n = 2^l := by
  have exponent : Nat.log 2 (n-1) = l := (Nat.log_eq_iff (.inr ⟨by decide,by omega⟩)).mpr ⟨by omega,by omega⟩
  rw [divider,exponent]

theorem halfSucc (l : Nat) : 2^(l+1)/2 = 2^l := by
  omega

theorem standsSucc : Stands n i (l+1) ↔ (2*i+1)*2^l < n := by
  unfold Stands
  rw [halfSucc,pow_succ,show i*(2^l*2)+2^l = (2*i+1)*2^l by ring]

theorem standsZero : Stands n i 0 ↔ i < n := by simp [Stands]

theorem standsCovers (stands : Stands n i l) : i*2^l < n := by
  exact lt_of_le_of_lt (Nat.le_add_right _ _) stands

theorem leftCovers (covers : i*2^(l+1) < n) : 2*i*2^l < n := by
  rwa [show 2*i*2^l = i*2^(l+1) by ring]

theorem shownSpec (covers : i*2^l < n) : (shown n i l).2 ≤ l ∧ Stands n (shown n i l).1 (shown n i l).2 ∧
      (shown n i l).1*2^(shown n i l).2 = i*2^l ∧ ∀ j < n, j/2^(shown n i l).2 = (shown n i l).1 ↔ j/2^l = i := by
  induction l generalizing i with
  | zero => exact ⟨le_refl 0,standsZero.mpr (by simpa [shown] using covers),rfl,fun j _ => Iff.rfl⟩
  | succ l ih =>
    unfold shown
    split
    · exact ⟨le_refl _,by assumption,rfl,fun j _ => Iff.rfl⟩
    rename_i fallen
    have start : 2*i*2^l = i*2^(l+1) := by ring
    obtain ⟨low,stands,same,inside⟩ := ih (leftCovers covers)
    refine ⟨by omega,stands,same.trans start,fun j below => (inside j below).trans ?_⟩
    rw [standsSucc] at fallen
    have half : j/2^l < 2*i+1 := (Nat.div_lt_iff_lt_mul (Nat.two_pow_pos l)).mpr (by omega)
    rw [pow_succ,← Nat.div_div_eq_div_mul]
    omega

section
variable {α β : Type} {leaf : α → β} {branch : β → β → β} {empty : β}

theorem rootLoopFuel (enough : xs.length ≤ fuel) : rootLoop leaf branch empty fuel xs = root leaf branch empty xs := by
  have both : ∀ n (xs : List α) (f f' : Nat), xs.length ≤ n → xs.length ≤ f → xs.length ≤ f' →
      rootLoop leaf branch empty f xs = rootLoop leaf branch empty f' xs := by
    intro n
    induction n with
    | zero =>
      intro xs f f' short _ _
      rw [length_eq_zero_iff.mp (Nat.le_zero.mp short)]
      simp [rootLoop]
    | succ n ih =>
      intro xs f f' short enough enough'
      match xs with
      | [] | [x] => simp [rootLoop]
      | x::y::rest =>
        obtain ⟨f,rfl⟩ : ∃ k, f = k+1 := ⟨f - 1,by simp at enough; omega⟩
        obtain ⟨f',rfl⟩ : ∃ k, f' = k+1 := ⟨f' - 1,by simp at enough'; omega⟩
        have smaller := dividerLt (show 2 ≤ (x::y::rest).length by simp)
        have pos := dividerPos (x::y::rest).length
        simp only [rootLoop]
        rw [ih (_ : List α) f f' (by rw [length_take]; omega) (by rw [length_take]; omega)
          (by rw [length_take]; omega),ih (drop _ _) f f' (by rw [length_drop]; omega)
          (by rw [length_drop]; omega) (by rw [length_drop]; omega)]
  exact both xs.length xs fuel xs.length (le_refl _) enough (le_refl _)

theorem rootSplit (two : 2 ≤ xs.length) : root leaf branch empty xs =
    branch (root leaf branch empty (xs.take (divider xs.length))) (root leaf branch empty (xs.drop (divider xs.length))) := by
  match xs with
  | [] | [x] => simp at two
  | x::y::rest =>
    have smaller := dividerLt two
    have pos := dividerPos (x::y::rest).length
    have len : (x::y::rest).length = rest.length+2 := rfl
    have unfolded : root leaf branch empty (x::y::rest) =
        branch (rootLoop leaf branch empty (rest.length+1) ((x::y::rest).take (divider (x::y::rest).length)))
          (rootLoop leaf branch empty (rest.length+1) ((x::y::rest).drop (divider (x::y::rest).length))) := rfl
    rw [unfolded,rootLoopFuel (by rw [length_take]; omega),rootLoopFuel (by rw [length_drop]; omega)]

theorem rootSingle (x : α) : root leaf branch empty [x] = leaf x := rfl

theorem spanLength (xs : List α) (i l : Nat) : (span xs i l).length = min (2^l) (xs.length-i*2^l) := by
  simp [span]

theorem spanLeft (xs : List α) (i l : Nat) : (span xs i (l+1)).take (2^l) = span xs (2*i) l := by
  unfold span
  rw [take_take,min_eq_left (Nat.pow_le_pow_right (by decide) (Nat.le_succ l)), show i*2^(l+1) = 2*i*2^l by ring]

theorem spanRight (xs : List α) (i l : Nat) : (span xs i (l+1)).drop (2^l) = span xs (2*i+1) l := by
  unfold span
  rw [drop_take,drop_drop,show 2^(l+1)-2^l = 2^l by rw [pow_succ]; omega,
    show i*2^(l+1)+2^l = (2*i+1)*2^l by ring]

theorem spanLong (stands : Stands xs.length i (l+1)) : 2^l < (span xs i (l+1)).length ∧ (span xs i (l+1)).length ≤ 2^(l+1) := by
  have pos := Nat.two_pow_pos l
  rw [standsSucc,show (2*i+1)*2^l = i*2^(l+1)+2^l by ring] at stands
  rw [spanLength,pow_succ] at *
  omega

theorem spanShort (fallen : ¬Stands xs.length i (l+1)) : span xs i (l+1) = span xs (2*i) l := by
  rw [standsSucc,show (2*i+1)*2^l = i*2^(l+1)+2^l by ring] at fallen
  have short : (span xs i (l+1)).length ≤ 2^l := by
    rw [spanLength]
    omega
  rw [← spanLeft,take_of_length_le short]

theorem nodeBranch (stands : Stands xs.length i (l+1)) : node leaf branch empty xs i (l+1) =
    branch (node leaf branch empty xs (2*i) l) (node leaf branch empty xs (2*i+1) l) := by
  have pos := Nat.two_pow_pos l
  obtain ⟨low,high⟩ := spanLong stands
  unfold node
  rw [rootSplit (by omega),dividerOf low high,spanLeft,spanRight]

theorem nodeShort (fallen : ¬Stands xs.length i (l+1)) : node leaf branch empty xs i (l+1) = node leaf branch empty xs (2*i) l := by
  rw [node,spanShort fallen,node]

theorem shownHeight (xs : List α) (i l : Nat) (covers : i*2^l < xs.length) :
    (shown xs.length i l).2 = Nat.clog 2 (span xs i l).length := by
  induction l generalizing i with
  | zero =>
    have one : (span xs i 0).length = 1 := by
      rw [spanLength]
      omega
    rw [one,Nat.clog_one_right]
    rfl
  | succ l ih =>
    unfold shown
    split
    · rename_i stands
      obtain ⟨low,high⟩ := spanLong stands
      refine le_antisymm ?_ ((Nat.clog_le_iff_le_pow (by decide)).mpr high)
      by_contra less
      have := (Nat.clog_le_iff_le_pow (by decide)).mp (show Nat.clog 2 (span xs i (l+1)).length ≤ l by omega)
      omega
    · rename_i fallen
      rw [ih _ (leftCovers covers),spanShort fallen]

/-- The lists the recursion of `root` is called with, each with the place of its first leaf. -/
inductive Part (xs : List α) : Nat → List α → Prop
  | whole : Part xs 0 xs
  | left : Part xs a ys → 2 ≤ ys.length → Part xs a (ys.take (divider ys.length))
  | right : Part xs a ys → 2 ≤ ys.length → Part xs (a + divider ys.length) (ys.drop (divider ys.length))

theorem partSpan {xs : List α} (covers : i*2^l < xs.length) (low : l ≤ Nat.clog 2 xs.length) : Part xs (i*2^l) (span xs i l) := by
  obtain ⟨d,top⟩ := Nat.exists_eq_add_of_le low
  induction d generalizing i l with
  | zero =>
    have all := Nat.le_pow_clog (show 1 < 2 by decide) xs.length
    rw [top,add_zero] at all
    obtain rfl : i = 0 := by
      by_contra some
      have := Nat.le_mul_of_pos_left (2^l) (Nat.pos_of_ne_zero some)
      omega
    rw [span,zero_mul,drop_zero,take_of_length_le all]
    exact .whole
  | succ d ih =>
    have pos := Nat.two_pow_pos l
    obtain ⟨p,rfl | rfl⟩ := Nat.even_or_odd' i
    · have start : p*2^(l+1) = 2*p*2^l := by ring
      have parent := @ih p (l+1) (by omega) (by omega) (by omega)
      rw [start] at parent
      by_cases stands : Stands xs.length p (l+1)
      · obtain ⟨long,high⟩ := spanLong stands
        have part := parent.left (by omega)
        rwa [dividerOf long high,spanLeft] at part
      · rwa [spanShort stands] at parent
    · have start : p*2^(l+1)+2^l = (2*p+1)*2^l := by ring
      obtain ⟨long,high⟩ := spanLong (standsSucc.mpr covers)
      have part := (@ih p (l+1) (by omega) (by omega) (by omega)).right (by omega)
      rwa [dividerOf long high,spanRight,start] at part

theorem nodeShown (xs : List α) (i l : Nat) :
    node leaf branch empty xs (shown xs.length i l).1 (shown xs.length i l).2 = node leaf branch empty xs i l := by
  induction l generalizing i with
  | zero => rfl
  | succ l ih =>
    unfold shown
    split
    · rfl
    · rename_i fallen
      rw [ih,nodeShort fallen]

theorem nodeLeaf (hit : xs[i]? = some x) : node leaf branch empty xs i 0 = leaf x := by
  obtain ⟨below,rfl⟩ := List.getElem?_eq_some_iff.mp hit
  have single : span xs i 0 = [xs[i]] := by
    rw [span,pow_zero,mul_one,List.drop_eq_getElem_cons below]
    rfl
  rw [node,single,rootSingle]

theorem nodeTop (covers : xs.length ≤ 2^l) : node leaf branch empty xs 0 l = root leaf branch empty xs := by
  unfold node span
  rw [zero_mul,drop_zero,take_of_length_le covers]

theorem nodeCongr (same : ∀ j, j/2^l = i → xs[j]? = ys[j]?) : node leaf branch empty xs i l = node leaf branch empty ys i l := by
  have spans : span xs i l = span ys i l := by
    apply ext_getElem?
    intro k
    simp only [span,getElem?_take,getElem?_drop]
    split
    · rename_i below
      refine same _ ?_
      rw [Nat.mul_comm,Nat.mul_add_div (Nat.two_pow_pos l),Nat.div_eq_of_lt below,Nat.add_zero]
    · rfl
  rw [node,spans,node]

end
end LiskEngine.SplitTree
