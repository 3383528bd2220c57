import LiskEngine.SparseTree
import Mathlib.Data.List.Infix

/-! Paths through sparse trees: where a key leads, the subtrees above and beside a path, and
the depth of the canonical tree. -/
namespace LiskEngine.SparseTree
open List Option
variable {K V : Type}

def above : SparseTree K V → List Bool → List (SparseTree K V)
  | node l r, b :: path => node l r :: (if b then r.above path else l.above path)
  | _, _ => []

def beside : SparseTree K V → List Bool → List (SparseTree K V)
  | node l r, b :: path => if b then l :: r.beside path else r :: l.beside path
  | _, _ => []

theorem aboveNode (l r : SparseTree K V) (b : Bool) (path : List Bool) :
    (node l r).above (b::path) = node l r::(if b then r else l).above path := by
  cases b <;> rfl

theorem besideNode (l r : SparseTree K V) (b : Bool) (path : List Bool) :
    (node l r).beside (b::path) = (if b then l else r)::(if b then r else l).beside path := by
  cases b <;> rfl

theorem subtreeAtNil (t : SparseTree K V) : t.subtreeAt [] = some t := by cases t <;> rfl

section
variable {t x : SparseTree K V}

theorem subtreeAtNode (hit : t.subtreeAt (b::path) = some x) : ∃ l r, t = node l r ∧ (if b then r else l).subtreeAt path = some x := by
  cases t with
  | empty | leaf k v => cases hit
  | node l r =>
    refine ⟨l,r,rfl,?_⟩
    cases b <;> exact hit

theorem aboveAppend (hit : t.subtreeAt path = some x) (more : List Bool) : t.above (path ++ more) = t.above path ++ x.above more := by
  induction path generalizing t with
  | nil =>
    rw [subtreeAtNil] at hit
    rw [some.inj hit]
    cases x <;> rfl
  | cons b path ih =>
    obtain ⟨l,r,rfl,below⟩ := subtreeAtNode hit
    rw [cons_append,aboveNode,aboveNode,ih below,cons_append]

theorem besideAppend (hit : t.subtreeAt path = some x) (more : List Bool) :
    t.beside (path ++ more) = t.beside path ++ x.beside more := by
  induction path generalizing t with
  | nil =>
    rw [subtreeAtNil] at hit
    rw [some.inj hit]
    cases x <;> rfl
  | cons b path ih =>
    obtain ⟨l,r,rfl,below⟩ := subtreeAtNode hit
    rw [cons_append,besideNode,besideNode,ih below,cons_append]

theorem besideLength (hit : t.subtreeAt path = some x) : (t.beside path).length = path.length := by
  induction path generalizing t with
  | nil => cases t <;> rfl
  | cons b path ih =>
    obtain ⟨l,r,rfl,below⟩ := subtreeAtNode hit
    rw [besideNode,length_cons,length_cons,ih below]

theorem subtreeAtParent (hit : t.subtreeAt (path ++ [b]) = some x) :
    ∃ l r, t.subtreeAt path = some (node l r) ∧ x = (if b then r else l) ∧
      t.subtreeAt (path ++ [!b]) = some (if b then l else r) ∧ t.beside (path ++ [b]) = t.beside path ++ [if b then l else r] := by
  rw [subtreeAtAppend] at hit
  obtain ⟨y,parent,child⟩ := bind_eq_some_iff.mp hit
  obtain ⟨l,r,rfl,same⟩ := subtreeAtNode child
  rw [subtreeAtNil] at same
  refine ⟨l,r,parent,(some.inj same).symm,?_,?_⟩
  · rw [subtreeAtAppend,parent]
    cases b <;> simp [subtreeAt,subtreeAtNil]
  · rw [besideAppend parent]
    cases b <;> cases l <;> cases r <;> rfl

theorem aboveMember (hit : t.subtreeAt path = some x) (y : SparseTree K V) :
    y ∈ t.above path ↔ ∃ p b more, path = p ++ b::more ∧ t.subtreeAt p = some y := by
  induction path generalizing t with
  | nil => cases t <;> simp [above]
  | cons c path ih =>
    obtain ⟨l,r,rfl,below⟩ := subtreeAtNode hit
    rw [aboveNode,mem_cons,ih below]
    constructor
    · rintro (rfl | ⟨p,b,more,rfl,place⟩)
      · exact ⟨[],c,path,rfl,rfl⟩
      · refine ⟨c::p,b,more,rfl,?_⟩
        cases c <;> exact place
    · rintro ⟨p,b,more,same,place⟩
      cases p with
      | nil =>
        exact .inl (some.inj place).symm
      | cons c' p =>
        obtain ⟨rfl,rfl⟩ := cons.inj same
        refine .inr ⟨p,b,more,rfl,?_⟩
        cases c <;> exact place

theorem subtreeAtSize (hit : t.subtreeAt path = some x) : x.size+path.length ≤ t.size := by
  induction path generalizing t with
  | nil =>
    rw [subtreeAtNil] at hit
    rw [some.inj hit]
    exact le_refl _
  | cons b path ih =>
    obtain ⟨l,r,rfl,below⟩ := subtreeAtNode hit
    have smaller := ih below
    have child : (if b then r else l).size ≤ l.size+r.size := by split <;> omega
    rw [size,length_cons]
    omega

end

theorem onPathPrefix (first : OnPath bit d p k) (second : OnPath bit d q k) (shorter : p.length ≤ q.length) : p <+: q := by
  induction p generalizing d q with
  | nil => exact nil_prefix
  | cons b p ih =>
    cases q with
    | nil => simp at shorter
    | cons c q =>
      rw [← first.1,← second.1]
      exact (prefix_append_right_inj [bit k d]).mpr (ih first.2 second.2 (Nat.le_of_succ_le_succ shorter))

theorem placeUnique {es} (apart : Apart bit n d es) (filled : x ≠ empty) (first : (build bit n d es).subtreeAt p = some x)
    (second : (build bit n d es).subtreeAt q = some x) : p = q := by
  obtain ⟨e,inside⟩ : ∃ e, e ∈ x.entries := by
    refine exists_mem_of_ne_nil _ (fun absent => filled ?_)
    exact buildFull n d es x (subtreeAtMember first) absent
  have alongP := ((subtreeAtEntries apart first e).mp inside).2
  have alongQ := ((subtreeAtEntries apart second e).mp inside).2
  have same : ∀ {p q : List Bool}, p <+: q → (build bit n d es).subtreeAt p = some x →
      (build bit n d es).subtreeAt q = some x → p = q := by
    rintro p _ ⟨more,rfl⟩ first second
    rw [subtreeAtAppend,first,bind_some] at second
    have size := subtreeAtSize second
    rw [length_eq_zero_iff.mp (show more.length = 0 by omega),append_nil]
  rcases le_total p.length q.length with within | within
  · exact same (onPathPrefix alongP alongQ within) first second
  · exact (same (onPathPrefix alongQ alongP within) second first).symm

theorem subtreeAtPrefix {t x : SparseTree K V} {p q} (hit : t.subtreeAt q = some x) (along : p <+: q) :
    ∃ y, t.subtreeAt p = some y := by
  obtain ⟨more,rfl⟩ := along
  rw [subtreeAtAppend] at hit
  obtain ⟨y,above,_⟩ := bind_eq_some_iff.mp hit
  exact ⟨y,above⟩

theorem tipEnds {t x : SparseTree K V} {p q} (tip : ∀ l r, x ≠ node l r) (hit : t.subtreeAt p = some x) {y}
    (below : t.subtreeAt q = some y) (along : p <+: q) : p = q := by
  obtain ⟨more,rfl⟩ := along
  rw [subtreeAtAppend,hit,bind_some] at below
  cases more with
  | nil => rw [append_nil]
  | cons b more =>
    obtain ⟨l,r,same,_⟩ := subtreeAtNode below
    exact absurd same (tip l r)

def depth : SparseTree K V → Nat
  | empty => 0
  | leaf _ _ => 0
  | node l r => max l.depth r.depth + 1

theorem joinDepth (l r : SparseTree K V) : (join l r).depth ≤ max l.depth r.depth+1 := by
  rcases joinCases l r with same | ⟨_,same⟩ | ⟨_,same⟩ <;> rw [same]
  · exact le_refl _
  · omega
  · omega

def Normal (t : SparseTree K V) : Prop := ∀ l r, node l r ∈ t.subtrees → join l r = node l r

theorem joinNormal (left : Normal l) (right : Normal r) : Normal (join l r) := by
  rcases joinCases l r with isNode | ⟨_,same⟩ | ⟨_,same⟩
  · intro a b inside
    rw [isNode] at inside
    rcases mem_cons.mp inside with same | below
    · cases same
      exact isNode
    · exact (mem_append.mp below).elim (left a b) (right a b)
  · rwa [same]
  · rwa [same]

section
variable {bit : K → Nat → Bool}

theorem buildDepth (n d : Nat) (es : List (K × V)) : (build bit n d es).depth ≤ n := by
  induction n generalizing d es with
  | zero => cases es <;> simp [build,depth]
  | succ n ih =>
    rw [buildSucc]
    have left := ih (d+1) (es.filter (fun e => !bit e.1 d))
    have right := ih (d+1) (es.filter (fun e => bit e.1 d))
    have whole := joinDepth (build bit n (d+1) (es.filter (fun e => !bit e.1 d)))
      (build bit n (d+1) (es.filter (fun e => bit e.1 d)))
    omega

theorem buildNormal (n d : Nat) (es : List (K × V)) : Normal (build bit n d es) := by
  induction n generalizing d es with
  | zero => cases es <;> simp [build,Normal,subtrees]
  | succ n ih => rw [buildSucc]; exact joinNormal (ih _ _) (ih _ _)

variable (bit)

def way (k : K) : Nat → Nat → SparseTree K V → List Bool
  | 0, _, _ => []
  | n + 1, d, node l r => bit k d :: way k n (d + 1) (if bit k d then r else l)
  | _ + 1, _, _ => []

def reach (k : K) : Nat → Nat → SparseTree K V → SparseTree K V
  | 0, _, t => t
  | n + 1, d, node l r => reach k n (d + 1) (if bit k d then r else l)
  | _ + 1, _, t => t

variable {bit}

section
variable (k : K) (n d : Nat) (t : SparseTree K V)

theorem wayReach : t.subtreeAt (way bit k n d t) = some (reach bit k n d t) := by
  induction n generalizing d t with
  | zero => exact subtreeAtNil t
  | succ n ih =>
    cases t with
    | empty | leaf k' v => rfl
    | node l r =>
      rw [way,reach,subtreeAt]
      cases side : bit k d
      · exact ih (d+1) l
      · exact ih (d+1) r

theorem wayOnPath : OnPath bit d (way bit k n d t) k := by
  induction n generalizing d t with
  | zero => trivial
  | succ n ih =>
    cases t with
    | empty | leaf k' v => trivial
    | node l r => exact ⟨rfl,ih (d+1) _⟩

theorem wayLength : (way bit k n d t).length ≤ n := by
  induction n generalizing d t with
  | zero => exact le_refl _
  | succ n ih =>
    cases t with
    | empty | leaf k' v => exact Nat.zero_le _
    | node l r => exact Nat.succ_le_succ (ih (d+1) _)

end

theorem wayTip {k n d} {t : SparseTree K V} (tip : ∀ l r, t ≠ node l r) : way bit k n d t = [] ∧ reach bit k n d t = t := by
  cases t with
  | empty | leaf k' v => cases n <;> exact ⟨rfl,rfl⟩
  | node l r => exact absurd rfl (tip l r)

theorem wayAdd (k : K) (n m d : Nat) (t : SparseTree K V) :
    way bit k (n+m) d t = way bit k n d t ++ way bit k m (d+n) (reach bit k n d t) ∧
      reach bit k (n+m) d t = reach bit k m (d+n) (reach bit k n d t) := by
  induction n generalizing d t with
  | zero => simp [way,reach]
  | succ n ih =>
    cases t with
    | empty | leaf k' v =>
      rw [(wayTip (by simp)).1,(wayTip (by simp)).2,(wayTip (by simp)).1,(wayTip (by simp)).2,(wayTip (by simp)).1,
        (wayTip (by simp)).2]
      exact ⟨rfl,rfl⟩
    | node l r =>
      have later := ih (d+1) (if bit k d then r else l)
      rw [show n+1+m = n+m+1 by omega,way,way,reach,reach,later.1,later.2,show d+1+n = d+(n+1) by omega]
      exact ⟨rfl,rfl⟩

theorem reachTip (bound : t.depth ≤ n) : ∀ l r, reach bit k n d t ≠ node l r := by
  induction n generalizing d t with
  | zero =>
    intro l r same
    rw [reach] at same
    rw [same,depth] at bound
    omega
  | succ n ih =>
    cases t with
    | empty | leaf k' v => exact fun l r same => by cases same
    | node l r =>
      rw [depth] at bound
      refine ih ?_
      split <;> omega

theorem reachDepth (k : K) (n d : Nat) (t : SparseTree K V) : (reach bit k n d t).depth ≤ t.depth-n := by
  induction n generalizing d t with
  | zero => simp [reach]
  | succ n ih =>
    cases t with
    | empty | leaf k' v => simp [reach,depth]
    | node l r =>
      rw [reach,depth]
      have later := ih (d+1) (if bit k d then r else l)
      have child : (if bit k d then r else l).depth ≤ max l.depth r.depth := by split <;> omega
      omega

theorem wayFull (isNode : reach bit k n d t = node l r) : (way bit k n d t).length = n := by
  induction n generalizing d t with
  | zero => rfl
  | succ n ih =>
    cases t with
    | empty | leaf k' v => cases isNode
    | node l' r' =>
      rw [way,length_cons,ih isNode]

end
end LiskEngine.SparseTree
