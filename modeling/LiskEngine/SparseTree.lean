import Mathlib.Data.List.Basic
import Mathlib.Data.List.Perm.Basic

/-! Sparse binary trees over keys with bits: the canonical tree of a set of
entries, in which a node stands only above at least two of them, and Merkle
digests of such trees. -/
namespace LiskEngine
open List

inductive SparseTree (K V : Type) where
  | empty
  | leaf (key : K) (value : V)
  | node (left right : SparseTree K V)
  deriving DecidableEq, Repr

namespace SparseTree
variable {K V : Type}

def join : SparseTree K V → SparseTree K V → SparseTree K V
  | empty, empty => empty
  | empty, leaf k v => leaf k v
  | leaf k v, empty => leaf k v
  | l, r => node l r

def entries : SparseTree K V → List (K × V)
  | empty => []
  | leaf k v => [(k, v)]
  | node l r => l.entries ++ r.entries

theorem joinEntries (l r : SparseTree K V) : (join l r).entries = l.entries ++ r.entries := by
  cases l <;> cases r <;> rfl

theorem joinCases (l r : SparseTree K V) : join l r = node l r ∨ (l = empty ∧ join l r = r) ∨ (r = empty ∧ join l r = l) := by
  cases l <;> cases r <;> simp [join]

def subtrees : SparseTree K V → List (SparseTree K V)
  | empty => [empty]
  | leaf k v => [leaf k v]
  | node l r => node l r :: (l.subtrees ++ r.subtrees)

theorem selfSubtree (t : SparseTree K V) : t ∈ t.subtrees := by
  cases t <;> simp [subtrees]

def size : SparseTree K V → Nat
  | empty => 1
  | leaf _ _ => 1
  | node l r => l.size + r.size + 1

theorem subtreeSize {x t : SparseTree K V} (inside : x ∈ t.subtrees) : x.size ≤ t.size := by
  induction t with
  | empty | leaf k v => cases mem_singleton.mp inside; exact Nat.le_refl _
  | node l r ihl ihr =>
    rcases mem_cons.mp inside with rfl | below
    · exact Nat.le_refl _
    simp only [size]
    rcases mem_append.mp below with inLeft | inRight
    · have := ihl inLeft
      omega
    · have := ihr inRight
      omega

theorem subtreeTrans {x y t : SparseTree K V} (inside : x ∈ y.subtrees) (below : y ∈ t.subtrees) : x ∈ t.subtrees := by
  induction t with
  | empty | leaf k v => cases mem_singleton.mp below; exact inside
  | node l r ihl ihr =>
    rcases mem_cons.mp below with rfl | below
    · exact inside
    · refine mem_cons_of_mem _ (mem_append.mpr ?_)
      exact (mem_append.mp below).imp ihl ihr

theorem subtreeEntries {x t : SparseTree K V} (inside : x ∈ t.subtrees) : ∀ e ∈ x.entries, e ∈ t.entries := by
  induction t with
  | empty | leaf k v => cases mem_singleton.mp inside; exact fun _ h => h
  | node l r ihl ihr =>
    rcases mem_cons.mp inside with rfl | below
    · exact fun _ h => h
    intro e mem
    refine mem_append.mpr ?_
    rcases mem_append.mp below with inLeft | inRight
    · exact .inl (ihl inLeft e mem)
    · exact .inr (ihr inRight e mem)

def subtreeAt : SparseTree K V → List Bool → Option (SparseTree K V)
  | t, [] => some t
  | node l r, b :: path => if b then r.subtreeAt path else l.subtreeAt path
  | _, _ :: _ => none

theorem subtreeAtMember {t x : SparseTree K V} {path} (hit : t.subtreeAt path = some x) : x ∈ t.subtrees := by
  induction path generalizing t with
  | nil =>
    cases t <;> cases hit <;> exact selfSubtree _
  | cons b path ih =>
    cases t with
    | empty | leaf k v => cases hit
    | node l r =>
      refine mem_cons_of_mem _ (mem_append.mpr ?_)
      cases b
      · exact .inl (ih hit)
      · exact .inr (ih hit)

theorem subtreeAtAppend (t : SparseTree K V) (path more : List Bool) :
    t.subtreeAt (path ++ more) = (t.subtreeAt path).bind (·.subtreeAt more) := by
  induction path generalizing t with
  | nil => cases t <;> simp [subtreeAt]
  | cons b path ih =>
    cases t with
    | empty | leaf k v => rfl
    | node l r => cases b <;> simp [subtreeAt,ih]

theorem joinMany (many : 2 ≤ (l.entries ++ r.entries).length) : join l r = node l r := by
  cases l <;> cases r <;> simp_all [join,entries]

theorem joinNode (isNode : join l r = node a b) : l = a ∧ r = b := by
  cases l <;> cases r <;> simp_all [join]

theorem joinLeft (inside : x ∈ l.subtrees) (r : SparseTree K V) : x = empty ∨ x ∈ (join l r).subtrees := by
  rcases joinCases l r with isNode | ⟨rfl,_⟩ | ⟨_,same⟩
  · exact .inr (by rw [isNode]; exact .tail _ (mem_append_left _ inside))
  · exact .inl (mem_singleton.mp inside)
  · exact .inr (by rwa [same])

theorem joinRight (inside : x ∈ r.subtrees) (l : SparseTree K V) : x = empty ∨ x ∈ (join l r).subtrees := by
  rcases joinCases l r with isNode | ⟨_,same⟩ | ⟨rfl,_⟩
  · exact .inr (by rw [isNode]; exact .tail _ (mem_append_right _ inside))
  · exact .inr (by rwa [same])
  · exact .inl (mem_singleton.mp inside)

def Full (t : SparseTree K V) : Prop := ∀ x ∈ t.subtrees, x.entries = [] → x = empty

theorem joinFull (left : Full l) (right : Full r) : Full (join l r) := by
  rcases joinCases l r with isNode | ⟨_,same⟩ | ⟨_,same⟩
  · intro x inside none
    rw [isNode] at inside
    rcases mem_cons.mp inside with rfl | below
    · obtain ⟨noneLeft,noneRight⟩ := append_eq_nil_iff.mp none
      rw [left l (selfSubtree l) noneLeft,right r (selfSubtree r) noneRight] at isNode
      cases isNode
    · rcases mem_append.mp below with inLeft | inRight
      · exact left x inLeft none
      · exact right x inRight none
  · rwa [same]
  · rwa [same]

section Build
variable (bit : K → Nat → Bool)

def build : Nat → Nat → List (K × V) → SparseTree K V
  | _, _, [] => empty
  | 0, _, e :: _ => leaf e.1 e.2
  | n + 1, d, e :: rest => join (build n (d + 1) ((e :: rest).filter (fun e => !bit e.1 d)))
      (build n (d + 1) ((e :: rest).filter (fun e => bit e.1 d)))

def Apart (n d : Nat) (entries : List (K × V)) : Prop :=
  entries.Pairwise (fun a b => ∃ i, d ≤ i ∧ i < d + n ∧ bit a.1 i ≠ bit b.1 i)

variable {bit}

theorem buildNil (n d : Nat) : build bit n d ([] : List (K × V)) = empty := by
  cases n <;> rfl

theorem buildSucc (n d : Nat) (entries : List (K × V)) : build bit (n+1) d entries =
    join (build bit n (d+1) (entries.filter (fun e => !bit e.1 d))) (build bit n (d+1) (entries.filter (fun e => bit e.1 d))) := by
  cases entries with
  | nil => simp [buildNil,join]
  | cons e rest => rfl

theorem buildFull (n d : Nat) (entries : List (K × V)) : Full (build bit n d entries) := by
  induction n generalizing d entries with
  | zero => cases entries <;> simp [build,Full,subtrees,SparseTree.entries]
  | succ n ih => rw [buildSucc]; exact joinFull (ih _ _) (ih _ _)

theorem buildSingle (n d : Nat) (k : K) (v : V) : build bit n d [(k,v)] = leaf k v := by
  induction n generalizing d with
  | zero => rfl
  | succ n ih =>
    cases side : bit k d <;> simp [buildSucc,side,ih,buildNil,join]

section
variable {n d} {entries : List (K × V)} (apart : Apart bit (n + 1) d entries)
include apart

theorem apartFilter (b : Bool) : Apart bit n (d+1) (entries.filter (fun e => bit e.1 d == b)) := by
  unfold Apart at *
  rw [pairwise_filter]
  refine apart.imp (fun {x y} ⟨i,low,high,differ⟩ left right => ⟨i,?_,by omega,differ⟩)
  rcases Nat.lt_or_eq_of_le low with smaller | same
  · exact smaller
  · subst same
    rw [beq_iff_eq] at left right
    exact absurd (left.trans right.symm) differ

theorem apartLeft : Apart bit n (d+1) (entries.filter (fun e => !bit e.1 d)) := by
  simpa using apartFilter apart false

theorem apartRight : Apart bit n (d+1) (entries.filter (fun e => bit e.1 d)) := by
  simpa using apartFilter apart true

end

theorem apartZero {entries : List (K × V)} (apart : Apart bit 0 d entries) : entries.length ≤ 1 := by
  match entries, apart with
  | [], _ | [_], _ => simp
  | a::b::rest, apart =>
    obtain ⟨i,low,high,_⟩ := (pairwise_cons.mp apart).1 b (.head _)
    omega

theorem buildEntries {entries : List (K × V)} (apart : Apart bit n d entries) : (build bit n d entries).entries.Perm entries := by
  induction n generalizing d entries with
  | zero =>
    have short := apartZero apart
    match entries, short with
    | [], _ | [e], _ => exact List.Perm.refl _
  | succ n ih =>
    rw [buildSucc,joinEntries]
    refine ((ih (apartLeft apart)).append (ih (apartRight apart))).trans ?_
    refine perm_append_comm.trans ?_
    simpa using filter_append_perm (fun e => bit e.1 d) entries

theorem buildPerm {entries es' : List (K × V)} (apart : Apart bit n d entries) (perm : entries.Perm es') :
    build bit n d entries = build bit n d es' := by
  induction n generalizing d entries es' with
  | zero =>
    have short := apartZero apart
    match entries, short, perm with
    | [], _, perm => rw [nil_perm.mp perm]
    | [e], _, perm => rw [singleton_perm.mp perm]
  | succ n ih =>
    rw [buildSucc,buildSucc,ih (apartLeft apart) (perm.filter _),ih (apartRight apart) (perm.filter _)]

theorem buildEmpty {entries : List (K × V)} (apart : Apart bit n d entries) (isEmpty : build bit n d entries = empty) :
    entries = [] := by
  have perm := buildEntries apart
  rw [isEmpty] at perm
  exact nil_perm.mp perm

theorem buildLeaf {entries : List (K × V)} (apart : Apart bit n d entries) (isLeaf : build bit n d entries = leaf k v) :
    entries = [(k,v)] := by
  have perm := buildEntries apart
  rw [isLeaf] at perm
  exact (singleton_perm.mp perm).symm

def OnPath (bit : K → Nat → Bool) : Nat → List Bool → K → Prop
  | _, [], _ => True
  | d, b :: path, k => bit k d = b ∧ OnPath bit (d + 1) path k

theorem subtreeAtEntries {entries : List (K × V)} (apart : Apart bit n d entries)
    (hit : (build bit n d entries).subtreeAt path = some x) (e : K × V) : e ∈ x.entries ↔ e ∈ entries ∧ OnPath bit d path e.1 := by
  induction path generalizing n d entries with
  | nil =>
    have same : x = build bit n d entries := by
      cases tree : build bit n d entries <;> rw [tree] at hit <;> cases hit <;> rfl
    rw [same,(buildEntries apart).mem_iff]
    simp [OnPath]
  | cons b path ih =>
    cases n with
    | zero => cases entries <;> cases hit
    | succ n =>
      cases tree : build bit (n+1) d entries with
      | empty | leaf k v => rw [tree] at hit; cases hit
      | node l r =>
        obtain ⟨rfl,rfl⟩ := joinNode ((buildSucc n d entries).symm.trans tree)
        rw [tree] at hit
        cases b with
        | false =>
          rw [ih (apartLeft apart) hit,mem_filter]
          simp [OnPath,and_assoc]
        | true =>
          rw [ih (apartRight apart) hit,mem_filter]
          simp [OnPath,and_assoc]

def Separated (bit : K → Nat → Bool) (n d : Nat) (P : K → Prop) : Prop :=
  ∀ k k', P k → P k' → k ≠ k' → ∃ i, d ≤ i ∧ i < d + n ∧ bit k i ≠ bit k' i

theorem separatedSplit (separated : Separated bit (n+1) d P) (b : Bool) : Separated bit n (d+1) (fun k => P k ∧ bit k d = b) := by
  rintro k k' ⟨inside,side⟩ ⟨inside',side'⟩ differ
  obtain ⟨i,low,high,ne⟩ := separated k k' inside inside' differ
  refine ⟨i,?_,by omega,ne⟩
  rcases Nat.lt_or_eq_of_le low with smaller | same
  · exact smaller
  · subst same
    exact absurd (side.trans side'.symm) ne

theorem apartOf (separated : Separated bit n d P) {entries : List (K × V)} (inside : ∀ e ∈ entries, P e.1)
    (nodup : (entries.map Prod.fst).Nodup) : Apart bit n d entries := by
  have pairs := pairwise_map.mp nodup
  exact pairs.imp_of_mem (fun {a b} left right differ => separated a.1 b.1 (inside a left) (inside b right) differ)

end Build

section Write
variable [DecidableEq K]

def written (updates : List (K × Option V)) (entries : List (K × V)) : List (K × V) :=
  entries.filter (fun e => e.1 ∉ updates.map Prod.fst) ++ updates.filterMap (fun u => u.2.map (fun v => (u.1, v)))

theorem writtenNil (entries : List (K × V)) : written [] entries = entries := by
  simp [written]

theorem writtenFilter (p : K → Bool) (updates : List (K × Option V)) (entries : List (K × V)) :
    (written updates entries).filter (fun e => p e.1) =
      written (updates.filter (fun u => p u.1)) (entries.filter (fun e => p e.1)) := by
  unfold written
  rw [filter_append]
  congr 1
  · rw [filter_filter,filter_filter]
    refine filter_congr (fun e _ => ?_)
    cases holds : p e.1 with
    | false => simp
    | true =>
      simp only [Bool.true_and,Bool.and_true,mem_map,mem_filter,decide_eq_decide]
      exact not_congr ⟨fun ⟨u,mem,same⟩ => ⟨u,⟨mem,by rw [same]; exact holds⟩,same⟩,
        fun ⟨u,⟨mem,_⟩,same⟩ => ⟨u,mem,same⟩⟩
  · induction updates with
    | nil => rfl
    | cons u rest ih =>
      obtain ⟨k,value⟩ := u
      cases value <;> cases holds : p k <;> simp [holds,ih]

theorem writtenKeys {P : K → Prop} {entries : List (K × V)} (inside : ∀ e ∈ entries, P e.1)
    (inside' : ∀ u ∈ updates, P u.1) : ∀ e ∈ written updates entries, P e.1 := by
  intro e mem
  rcases mem_append.mp mem with old | new
  · exact inside e (mem_filter.mp old).1
  · obtain ⟨u,listed,made⟩ := mem_filterMap.mp new
    obtain ⟨v,_,rfl⟩ := Option.map_eq_some_iff.mp made
    exact inside' u listed

theorem writtenDistinct {entries : List (K × V)} (nodup : (entries.map Prod.fst).Nodup)
    (nodup' : (updates.map Prod.fst).Nodup) : ((written updates entries).map Prod.fst).Nodup := by
  unfold written
  rw [map_append,nodup_append]
  refine ⟨nodup.sublist (filter_sublist.map _),?_,?_⟩
  · have sub : List.Sublist ((updates.filterMap (fun u => u.2.map (fun v => (u.1,v)))).map Prod.fst)
        (updates.map Prod.fst) := by
      clear nodup
      induction updates with
      | nil => exact List.Sublist.refl _
      | cons u rest ih =>
        obtain ⟨k,value⟩ := u
        have tail := ih (nodup_cons.mp nodup').2
        cases value with
        | none => exact tail.cons _
        | some v => exact tail.cons_cons _
    exact nodup'.sublist sub
  · intro k old k' new same
    subst same
    obtain ⟨e,kept,rfl⟩ := mem_map.mp old
    obtain ⟨e',made,same⟩ := mem_map.mp new
    obtain ⟨u,listed,value⟩ := mem_filterMap.mp made
    obtain ⟨v,_,rfl⟩ := Option.map_eq_some_iff.mp value
    have absent := (mem_filter.mp kept).2
    simp only [decide_eq_true_eq] at absent
    exact absent (mem_map.mpr ⟨u,listed,same⟩)

end Write

inductive Preimage (K V H : Type) where
  | empty
  | leaf (key : K) (value : V)
  | branch (left right : H)
  deriving DecidableEq, Repr

section Digest
variable {H : Type} (digest : Preimage K V H → H)

def root : SparseTree K V → H
  | empty => digest .empty
  | leaf k v => digest (.leaf k v)
  | node l r => digest (.branch l.root r.root)

def preimage : SparseTree K V → Preimage K V H
  | empty => .empty
  | leaf k v => .leaf k v
  | node l r => .branch (l.root digest) (r.root digest)

theorem rootPreimage (t : SparseTree K V) : t.root digest = digest (t.preimage digest) := by
  cases t <;> rfl

variable {digest}

theorem rootInjective {x y : SparseTree K V}
    (free : ∀ x' ∈ x.subtrees, ∀ y' ∈ y.subtrees, digest (x'.preimage digest) = digest (y'.preimage digest) →
      x'.preimage digest = y'.preimage digest) (same : x.root digest = y.root digest) : x = y := by
  induction x generalizing y with
  | empty =>
    have eq := free empty (selfSubtree _) y (selfSubtree _) (by rwa [rootPreimage,rootPreimage] at same)
    cases y <;> simp_all [preimage]
  | leaf k v =>
    have eq := free (leaf k v) (selfSubtree _) y (selfSubtree _) (by rwa [rootPreimage,rootPreimage] at same)
    cases y <;> simp_all [preimage]
  | node l r ihl ihr =>
    have eq := free (node l r) (selfSubtree _) y (selfSubtree _) (by rwa [rootPreimage,rootPreimage] at same)
    cases y with
    | empty | leaf k v => simp [preimage] at eq
    | node l' r' =>
      simp only [preimage,Preimage.branch.injEq] at eq
      have left := ihl (fun x' inX y' inY => free x' (.tail _ (mem_append_left _ inX)) y'
        (.tail _ (mem_append_left _ inY))) eq.1
      have right := ihr (fun x' inX y' inY => free x' (.tail _ (mem_append_right _ inX)) y'
        (.tail _ (mem_append_right _ inY))) eq.2
      rw [left,right]

end Digest
end SparseTree
end LiskEngine
