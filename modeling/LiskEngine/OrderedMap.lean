import Mathlib.Data.List.Sort
import Mathlib.Data.List.Lex

/-! Finite maps as strictly ascending entry lists over any linear order.
The representation is canonical: maps with the same lookups are equal. -/
namespace LiskEngine
open List Option

structure OrderedMap (K V : Type) [LinearOrder K] where
  entries : List (K × V)
  sorted : entries.Pairwise (fun a b => a.1 < b.1)
  deriving DecidableEq

namespace OrderedMap
variable {K V : Type} [LinearOrder K]

def empty : OrderedMap K V := ⟨[],List.Pairwise.nil⟩

instance : Inhabited (OrderedMap K V) := ⟨empty⟩

def get (m : OrderedMap K V) (k : K) : Option V := (m.entries.find? (fun e => e.1 == k)).map Prod.snd

def insertEntry (k : K) (v : V) : List (K × V) → List (K × V)
  | [] => [(k, v)]
  | e :: rest =>
    if k < e.1 then (k, v) :: e :: rest
    else if k = e.1 then (k, v) :: rest
    else e :: insertEntry k v rest

theorem memInsertEntry {e : K × V} (mem : e ∈ insertEntry k v xs) : e = (k,v) ∨ e ∈ xs := by
  induction xs with
  | nil => exact .inl (by simpa [insertEntry] using mem)
  | cons head rest ih =>
    simp only [insertEntry] at mem
    split at mem
    · exact (mem_cons.mp mem)
    split at mem
    · rcases mem_cons.mp mem with same | old
      · exact .inl same
      · exact .inr (.tail _ old)
    · rcases mem_cons.mp mem with same | old
      · exact .inr (by simp [same])
      · exact (ih old).imp_right (mem_cons_of_mem _)

theorem insertFresh {xs : List (K × V)} (fresh : ∀ e ∈ xs, e.1 ≠ k) : (insertEntry k v xs).length = xs.length+1 := by
  induction xs with
  | nil => rfl
  | cons e rest ih =>
    unfold insertEntry
    split
    · rfl
    · rw [if_neg (fresh e (.head _)).symm,length_cons,ih (fun e mem => fresh e (.tail _ mem)),length_cons]

theorem insertEntrySorted {xs : List (K × V)} (k : K) (v : V) (sorted : xs.Pairwise (fun a b => a.1 < b.1)) :
    (insertEntry k v xs).Pairwise (fun a b => a.1 < b.1) := by
  induction xs with
  | nil => simp [insertEntry]
  | cons head rest ih =>
    obtain ⟨above,tail⟩ := pairwise_cons.mp sorted
    simp only [insertEntry]
    split
    · rename_i below
      refine pairwise_cons.mpr ⟨?_,sorted⟩
      intro e mem
      rcases mem_cons.mp mem with same | old
      · simpa [same] using below
      · exact below.trans (above e old)
    · split
      · rename_i same
        exact pairwise_cons.mpr ⟨fun e mem => by simpa [same] using above e mem,tail⟩
      rename_i notBelow different
      refine pairwise_cons.mpr ⟨?_,ih tail⟩
      intro e mem
      rcases memInsertEntry mem with same | old
      · rw [same]; exact lt_of_le_of_ne (not_lt.mp notBelow) (Ne.symm different)
      · exact above e old

def set (m : OrderedMap K V) (k : K) (v : V) : OrderedMap K V :=
  ⟨insertEntry k v m.entries,insertEntrySorted k v m.sorted⟩

def del (m : OrderedMap K V) (k : K) : OrderedMap K V :=
  ⟨m.entries.filter (fun e => e.1 ≠ k),m.sorted.filter _⟩

theorem memIffGet (m : OrderedMap K V) (k : K) (v : V) : (k,v) ∈ m.entries ↔ m.get k = some v := by
  obtain ⟨es,sorted⟩ := m
  unfold get
  induction es with
  | nil => simp
  | cons head rest ih =>
    obtain ⟨above,tail⟩ := pairwise_cons.mp sorted
    have next := ih tail
    by_cases same : head.1 = k
    · have absent : (k,v) ∉ rest := fun mem => by
        have := above (k,v) mem
        simp [same] at this
      simp only [mem_cons,absent,or_false,find?_cons,same,beq_self_eq_true,map_some,some.injEq]
      constructor
      · intro eq; rw [← eq]
      · intro eq; rw [← same,← eq]
    · have notHead : (k,v) ≠ head := fun eq => same (by rw [← eq])
      simp only [mem_cons,notHead,false_or,find?_cons,beq_eq_false_iff_ne.mpr same]
      exact next

theorem ascendingNodup {xs : List (K × V)} (sorted : xs.Pairwise (fun a b => a.1 < b.1)) : xs.Nodup :=
  sorted.imp (fun {a b} inside eq => by rw [eq] at inside; exact lt_irrefl _ inside)

theorem ascendingEq {xs ys : List (K × V)} (left : xs.Pairwise (fun a b => a.1 < b.1))
    (right : ys.Pairwise (fun a b => a.1 < b.1)) (mems : ∀ e, e ∈ xs ↔ e ∈ ys) : xs = ys := by
  have perm : xs.Perm ys := (perm_ext_iff_of_nodup (ascendingNodup left) (ascendingNodup right)).mpr mems
  exact perm.eq_of_pairwise (fun a b _ _ ab ba => absurd ab (lt_asymm ba)) left right

theorem extGet {m n : OrderedMap K V} (same : ∀ k, m.get k = n.get k) : m = n := by
  have eq : m.entries = n.entries := by
    refine ascendingEq m.sorted n.sorted (fun e => ?_)
    obtain ⟨k,v⟩ := e
    rw [memIffGet,memIffGet,same]
  obtain ⟨xs,_⟩ := m
  obtain ⟨ys,_⟩ := n
  simpa using eq

theorem getSet (m : OrderedMap K V) (k k' : K) (v : V) : (m.set k v).get k' = if k' = k then some v else m.get k' := by
  obtain ⟨es,sorted⟩ := m
  unfold set get
  induction es with
  | nil => by_cases same : k' = k <;> simp [insertEntry,same,Ne.symm]
  | cons head rest ih =>
    obtain ⟨above,tail⟩ := pairwise_cons.mp sorted
    have next := ih tail
    simp only [insertEntry]
    split
    · by_cases same : k' = k
      · simp [same]
      · simp [same,Ne.symm same]
    · split
      · rename_i eq
        by_cases same : k' = k
        · simp [same]
        · simp [same,Ne.symm same,← eq]
      · rename_i notBelow different
        by_cases atHead : head.1 = k'
        · have : k' ≠ k := fun eq => different (by rw [atHead,eq])
          simp [atHead,this]
        · simp only [find?_cons,beq_eq_false_iff_ne.mpr atHead]
          exact next

theorem getDel (m : OrderedMap K V) (k k' : K) : (m.del k).get k' = if k' = k then none else m.get k' := by
  apply ext
  intro v
  rw [← memIffGet]
  by_cases same : k' = k
  · simp [del,same]
  · simp [del,same,memIffGet]

theorem getEmpty (k : K) : (empty : OrderedMap K V).get k = none := rfl

theorem lastGreatest {m : OrderedMap K V} {k v} (held : m.get k = some v) (greatest : ∀ k' v', m.get k' = some v' → k' ≤ k) :
    m.entries.getLast? = some (k,v) := by
  have mem : (k,v) ∈ m.entries := (memIffGet m k v).mpr held
  obtain ⟨front,last,split⟩ := (eq_nil_or_concat' m.entries).resolve_left (ne_nil_of_mem mem)
  have below : last.1 ≤ k := greatest last.1 last.2 ((memIffGet m _ _).mp (by rw [split]; simp))
  have sorted := m.sorted
  rw [split] at mem sorted ⊢
  rcases mem_append.mp mem with earlier | final
  · have above := (pairwise_append.mp sorted).2.2 (k,v) earlier last (by simp)
    exact absurd above (not_lt_of_ge below)
  · rw [getLast?_append,mem_singleton.mp final]
    rfl

def between (m : OrderedMap K V) (low high : K) : List (K × V) :=
  m.entries.filter (fun e => low ≤ e.1 ∧ e.1 ≤ high)

theorem memBetween {m : OrderedMap K V} {low high k v} : (k,v) ∈ m.between low high ↔ m.get k = some v ∧ low ≤ k ∧ k ≤ high := by
  simp [between,memIffGet]

theorem betweenSorted (m : OrderedMap K V) (low high : K) :
    (m.between low high).Pairwise (fun a b => a.1 < b.1) := m.sorted.filter _

end OrderedMap
end LiskEngine
