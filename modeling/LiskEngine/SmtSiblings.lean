import LiskEngine.SmtAnswer
import Mathlib.Data.List.Dedup

/-! The sibling hashes of a proof. Queries are taken from the longest path to the
shortest and from left to right, so a proof lists the hash beside every path that
some query passes and no query answers, each once and in that order. -/
namespace LiskEngine.Smt
open List SparseTree QueryProof

def sibling (path : List Bool) : List Bool := path.dropLast ++ [!path.getLast?.getD false]

theorem siblingConcat (p : List Bool) (b : Bool) : sibling (p ++ [b]) = p ++ [!b] := by
  simp [sibling]

theorem pathSplit {path : List Bool} (ne : path ≠ []) : ∃ p b, path = p ++ [b] :=
  ⟨path.dropLast,path.getLast ne,(dropLast_append_getLast ne).symm⟩

theorem siblingTwice {path : List Bool} (ne : path ≠ []) : sibling (sibling path) = path := by
  obtain ⟨p,b,rfl⟩ := pathSplit ne
  rw [siblingConcat,siblingConcat,Bool.not_not]

theorem siblingNonempty (path : List Bool) : sibling path ≠ [] := by
  simp [sibling]

def Ahead (p q : List Bool) : Prop := q.length < p.length ∨ (q.length = p.length ∧ number p < number q)

theorem aheadTrans (first : Ahead p q) (second : Ahead q r) : Ahead p r := by
  unfold Ahead at *
  omega

theorem aheadIrrefl (p : List Bool) : ¬Ahead p p := by
  unfold Ahead
  omega

theorem aheadTotal (differ : p ≠ q) : Ahead p q ∨ Ahead q p := by
  have apart : p.length = q.length → number p ≠ number q := fun len same => differ (numberInjective len same)
  unfold Ahead
  omega

structure Passed (places paths : List (List Bool)) : Prop where
  ordered : places.Pairwise Ahead
  mem : ∀ p, p ∈ places ↔ p ≠ [] ∧ ∃ q ∈ paths, p <+: q

theorem orderedUnique {xs ys : List (List Bool)} (first : xs.Pairwise Ahead) (second : ys.Pairwise Ahead)
    (same : ∀ p, p ∈ xs ↔ p ∈ ys) : xs = ys := by
  have nodup : ∀ {zs : List (List Bool)}, zs.Pairwise Ahead → zs.Nodup := by
    intro zs ordered
    refine List.Pairwise.imp (fun {a b} ahead same => ?_) ordered
    rw [same] at ahead
    exact aheadIrrefl b ahead
  have perm : xs.Perm ys := (perm_ext_iff_of_nodup (nodup first) (nodup second)).mpr same
  exact perm.eq_of_pairwise (fun a b _ _ ab ba => absurd (aheadTrans ab ba) (aheadIrrefl a)) first second

theorem passedCongr (passed : Passed places paths) (same : ∀ p, p ∈ paths ↔ p ∈ paths') : Passed places paths' := by
  refine ⟨passed.ordered,fun p => ?_⟩
  rw [passed.mem]
  simp only [same]

theorem passedExists (paths : List (List Bool)) : ∃ places, Passed places paths := by
  let le : List Bool → List Bool → Prop := fun p q => p = q ∨ Ahead p q
  have : IsTrans (List Bool) le := by
    refine ⟨fun p q r first second => ?_⟩
    rcases first with rfl | first
    · exact second
    · rcases second with rfl | second
      · exact .inr first
      · exact .inr (aheadTrans first second)
  have : Std.Total le := by
    refine ⟨fun p q => ?_⟩
    by_cases same : p = q
    · exact .inl (.inl same)
    · exact (aheadTotal same).imp .inr .inr
  classical
  let listed := ((paths.flatMap inits).filter (fun p => decide (p ≠ []))).dedup
  have sorted := pairwise_insertionSort le listed
  have perm := perm_insertionSort le listed
  refine ⟨listed.insertionSort le,?_,fun p => ?_⟩
  · have nodup := perm.nodup_iff.mpr (nodup_dedup _)
    exact (sorted.and nodup).imp (fun both => both.1.resolve_left both.2)
  · rw [perm.mem_iff]
    simp [listed,and_comm,mem_dedup]

theorem passedNil (passed : Passed places []) : places = [] := by
  refine eq_nil_iff_forall_not_mem.mpr (fun p member => ?_)
  obtain ⟨_,q,inside,_⟩ := (passed.mem p).mp member
  cases inside

theorem passedTop (passed : Passed places ([]::rest)) : Passed places rest := by
  refine ⟨passed.ordered,fun p => ?_⟩
  rw [passed.mem,exists_mem_cons_iff,prefix_nil]
  exact ⟨fun ⟨ne,along⟩ => ⟨ne,along.resolve_left ne⟩,fun ⟨ne,along⟩ => ⟨ne,.inr along⟩⟩

theorem passedHead (sorted : Sorted (q::rest)) (valid : ∀ r ∈ q::rest, r.Valid) (pos : q.height ≠ 0)
    (passed : Passed places ((q::rest).map QueryProof.path)) : ∃ later, places = q.path::later := by
  have own := pathLength (valid q (.head _))
  have ne : q.path ≠ [] := fun absent => pos (by rw [← own,absent]; rfl)
  have least : ∀ p ∈ places, p = q.path ∨ Ahead q.path p := by
    intro p member
    obtain ⟨_,path,listed,along⟩ := (passed.mem p).mp member
    obtain ⟨r,inside,rfl⟩ := mem_map.mp listed
    have lengthR := pathLength (valid r inside)
    have short := along.length_le
    rcases mem_cons.mp inside with rfl | later
    · rcases lt_or_eq_of_le short with smaller | same
      · exact .inr (.inl smaller)
      · exact .inl (along.eq_of_length same)
    · have order := (pairwise_cons.mp sorted).1 r later
      by_cases same : p.length = q.path.length
      · have height : r.height = q.height := by rcases order with lower | ⟨height,_⟩ <;> omega
        obtain rfl := along.eq_of_length (by omega)
        have number := beforeNumber order height (valid q (.head _)) (valid r inside)
        by_cases equal : r.path = q.path
        · exact .inl equal
        · have differ := mt (numberInjective same) equal
          exact .inr (.inr ⟨same,by omega⟩)
      · refine .inr (.inl ?_)
        rcases order with lower | ⟨height,_⟩ <;> omega
  have member : q.path ∈ places := (passed.mem _).mpr ⟨ne,q.path,mem_cons_self,prefix_rfl⟩
  cases places with
  | nil => cases member
  | cons a later =>
    rcases least a (.head _) with rfl | ahead
    · exact ⟨later,rfl⟩
    rcases mem_cons.mp member with same | inside
    · exact ⟨later,by rw [same]⟩
    · have back := (pairwise_cons.mp passed.ordered).1 _ inside
      exact absurd (aheadTrans ahead back) (aheadIrrefl _)

theorem passedUp (passed : Passed ((p ++ [b])::later) ((p ++ [b])::rest)) (longest : ∀ r ∈ rest, r.length ≤ p.length+1) :
    Passed (if p ++ [b] ∈ rest then (p ++ [b])::later else later) (p::rest) := by
  have ends : ∀ {x}, x <+: p ++ [b] ↔ x = p ++ [b] ∨ x <+: p := fun {x} => by rw [prefix_concat_iff]
  have whole : ∀ r ∈ rest, p ++ [b] <+: r → p ++ [b] = r := fun r member along =>
    along.eq_of_length (le_antisymm along.length_le (by simpa using longest r member))
  have fresh : p ++ [b] ∉ later := fun inside =>
    aheadIrrefl _ ((pairwise_cons.mp passed.ordered).1 _ inside)
  have all : ∀ x, x ∈ (p ++ [b])::later ↔ x ≠ [] ∧ ((x = p ++ [b] ∨ x <+: p) ∨ ∃ r ∈ rest, x <+: r) := by
    intro x
    rw [passed.mem]
    simp [ends]
  split
  · rename_i again
    refine ⟨passed.ordered,fun x => ?_⟩
    rw [all]
    simp only [mem_cons,exists_eq_or_imp]
    constructor
    · rintro ⟨ne,(rfl | along) | other⟩
      · exact ⟨ne,.inr ⟨_,again,prefix_rfl⟩⟩
      · exact ⟨ne,.inl along⟩
      · exact ⟨ne,.inr other⟩
    · rintro ⟨ne,along | other⟩
      · exact ⟨ne,.inl (.inr along)⟩
      · exact ⟨ne,.inr other⟩
  · rename_i gone
    refine ⟨(pairwise_cons.mp passed.ordered).2,fun x => ?_⟩
    simp only [mem_cons,exists_eq_or_imp]
    constructor
    · intro inside
      obtain ⟨ne,(rfl | along) | other⟩ := (all x).mp (.tail _ inside)
      · exact absurd inside fresh
      · exact ⟨ne,.inl along⟩
      · exact ⟨ne,.inr other⟩
    · rintro ⟨ne,inside⟩
      have differs : x ≠ p ++ [b] := by
        rintro rfl
        rcases inside with along | ⟨r,member,along⟩
        · have short := along.length_le
          simp at short
        · exact gone (whole r member along ▸ member)
      exact (mem_cons.mp ((all x).mpr ⟨ne,inside.imp .inr id⟩)).resolve_left differs

instance lawfulPath : LawfulBEq (List Bool) := inferInstance

section
variable (sha : Bytes → Bytes) (t : Tree)

def besideEnd (path : List Bool) : Tree := (t.subtreeAt (sibling path)).getD .empty

def needs (places : List (List Bool)) : List Bytes :=
  (places.filter (fun p => decide (besideEnd t p ≠ .empty ∧ sibling p ∉ places))).map (fun p => treeRoot sha (besideEnd t p))

structure Collects (q : QueryProof) : Prop where
  valid : q.Valid
  place : ∃ x, t.subtreeAt q.path = some x
  bitmap : q.binaryBitmap = (pathHashes sha t q.path).binaryBitmap
  siblings : q.siblingHashes = (pathHashes sha t q.path).siblingHashes

end

theorem besideParent (hit : t.subtreeAt (p ++ [b]) = some x) :
    ∃ l r, t.subtreeAt p = some (.node l r) ∧ x = (if b then r else l) ∧ besideEnd t (p ++ [b]) = (if b then l else r) := by
  obtain ⟨l,r,parent,own,other,_⟩ := subtreeAtParent hit
  exact ⟨l,r,parent,own,by rw [besideEnd,siblingConcat,other]; rfl⟩

theorem pathHashesUp {t x p b} (hit : t.subtreeAt (p ++ [b]) = some x) :
    (pathHashes sha t (p ++ [b])).binaryBitmap = decide (besideEnd t (p ++ [b]) ≠ .empty)::(pathHashes sha t p).binaryBitmap ∧
    (pathHashes sha t (p ++ [b])).siblingHashes = (pathHashes sha t p).siblingHashes ++
      (if besideEnd t (p ++ [b]) ≠ .empty then [treeRoot sha (besideEnd t (p ++ [b]))] else []) := by
  obtain ⟨l,r,parent,_,other,along⟩ := subtreeAtParent hit
  have same : besideEnd t (p ++ [b]) = (if b then l else r) := by rw [besideEnd,siblingConcat,other]; rfl
  rw [pathHashes,along,← same]
  refine ⟨by simp [pathHashes],?_⟩
  by_cases isEmpty : besideEnd t (p ++ [b]) = .empty <;> simp [isEmpty,pathHashes]

section
variable (sha : Bytes → Bytes) (t : Tree)

def lifted (q : QueryProof) (p : List Bool) : QueryProof :=
  {q with siblingHashes := (pathHashes sha t p).siblingHashes, binaryBitmap := q.binaryBitmap.tail}

def Wanted (ancestorHashes siblingHashes : List Bytes) (path : List Bool) : Prop :=
  besideEnd t path ≠ .empty ∧ treeRoot sha (besideEnd t path) ∉ ancestorHashes ∧ treeRoot sha (besideEnd t path) ∉ siblingHashes

instance (ancestorHashes siblingHashes : List Bytes) (path : List Bool) :
    Decidable (Wanted sha t ancestorHashes siblingHashes path) := by
  unfold Wanted
  infer_instance

def collected (ancestorHashes siblingHashes : List Bytes) (path : List Bool) : List Bytes :=
  if Wanted sha t ancestorHashes siblingHashes path then siblingHashes ++ [treeRoot sha (besideEnd t path)] else siblingHashes

def missing (ancestorHashes siblingHashes : List Bytes) (places : List (List Bool)) : List Bytes :=
  (places.filter (fun p => decide (Wanted sha t ancestorHashes siblingHashes p))).map (fun p => treeRoot sha (besideEnd t p))

def OneBeside : Prop :=
  ∀ p q, p ≠ [] → q ≠ [] → besideEnd t p ≠ .empty → treeRoot sha (besideEnd t p) = treeRoot sha (besideEnd t q) → p = q

end

section
variable {t : Tree} {q : QueryProof} (collects : Collects sha t q) {p : List Bool} {b : Bool} (ends : q.path = p ++ [b])
include collects ends

theorem liftedCollects : Collects sha t (lifted sha t q p) ∧ (lifted sha t q p).path = p := by
  obtain ⟨x,hit⟩ := collects.place
  have bitmap := collects.bitmap
  rw [ends] at hit bitmap
  obtain ⟨l,r,parent,_⟩ := besideParent hit
  have raised := raisePath collects.valid ends q.hash
  have path : (lifted sha t q p).path = p := raised.1
  refine ⟨⟨raised.2,⟨_,by rw [path]; exact parent⟩,?_,by rw [path]; rfl⟩,path⟩
  rw [path]
  show q.binaryBitmap.tail = _
  rw [bitmap,(pathHashesUp hit).1]
  rfl

theorem collectSiblingOk (ancs sibs : List Bytes) : collectSibling ancs sibs q =
    .ok ({q with siblingHashes := (pathHashes sha t p).siblingHashes},collected sha t ancs sibs q.path) := by
  obtain ⟨x,hit⟩ := collects.place
  have bitmap := collects.bitmap
  have siblings := collects.siblings
  rw [ends] at hit bitmap siblings
  obtain ⟨bits,hashes⟩ := @pathHashesUp sha _ _ _ _ hit
  rw [bits] at bitmap
  rw [hashes] at siblings
  have bit : index q.binaryBitmap 0 = .ok (decide (besideEnd t (p ++ [b]) ≠ .empty)) := indexOk (by rw [bitmap]; rfl)
  unfold collectSibling collected
  rw [bit,ends]
  by_cases isEmpty : besideEnd t (p ++ [b]) = .empty
  · rw [if_neg (not_not_intro isEmpty),append_nil] at siblings
    rw [if_neg (·.1 isEmpty),← siblings]
    simp [isEmpty,bind,Except.bind]
  · rw [if_pos isEmpty] at siblings
    simp only [isEmpty,siblings,bind,Except.bind,ne_eq,not_false_eq_true,decide_true,if_true,getLast?_concat,dropLast_concat]
    by_cases old : treeRoot sha (besideEnd t (p ++ [b])) ∈ sibs ∨ treeRoot sha (besideEnd t (p ++ [b])) ∈ ancs
    · rw [if_pos old,if_neg (fun new => old.elim new.2.2 new.2.1)]
    · rw [if_neg old,if_pos ⟨isEmpty,fun inside => old (.inr inside),fun inside => old (.inl inside)⟩]

end

theorem liftQueue (sorted : Sorted (q::rest)) (collects : ∀ r ∈ q::rest, Collects sha t r) (ends : q.path = p ++ [b]) :
    ∃ qs, insertAndFilterQueries (lifted sha t q p) rest = .ok qs ∧ Sorted qs ∧
      (∀ r ∈ qs, Collects sha t r) ∧ levels qs+1 ≤ levels (q::rest) ∧
      ∀ path, path ∈ p::rest.map QueryProof.path ↔ path ∈ qs.map QueryProof.path := by
  have own := collects q (.head _)
  have others := fun r mem => collects r (mem_cons_of_mem q mem)
  obtain ⟨lift,path⟩ := liftedCollects own ends
  have height : (lifted sha t q p).height+1 = q.height := by
    have len := pathLength own.valid
    rw [ends,length_append,length_singleton] at len
    have up := pathLength lift.valid
    rw [path] at up
    omega
  obtain ⟨xs,ys,rfl,ordered,inserted⟩ := insertQuery (pairwise_cons.mp sorted).2 lift.valid
    (fun r mem => (others r mem).valid)
  have whole := levelsCons q (xs ++ ys)
  have perm : (xs ++ lifted sha t q p::ys).Perm (lifted sha t q p::(xs ++ ys)) := perm_middle
  refine ⟨_,inserted,?_⟩
  split
  · rename_i same
    obtain ⟨y,isHead,samePath⟩ := Option.map_eq_some_iff.mp same
    have inside : y ∈ xs ++ ys := mem_append_right _ (mem_of_mem_head? isHead)
    refine ⟨(pairwise_cons.mp sorted).2,others,by omega,fun path' => ?_⟩
    rw [path] at samePath
    rw [mem_cons]
    exact ⟨fun mem => mem.elim (fun eq => eq ▸ mem_map.mpr ⟨y,inside,samePath⟩) id,.inr⟩
  · refine ⟨ordered,fun r mem => ?_,?_,fun path' => ?_⟩
    · rcases mem_cons.mp (perm.mem_iff.mp mem) with rfl | old
      · exact lift
      · exact others r old
    · rw [levelsPerm perm,whole,levelsCons]
      omega
    · rw [(perm.map _).mem_iff,map_cons,path]

section
variable {t : Tree} (unique : OneBeside sha t)
include unique

theorem collectedPlace {ancs sibs} (ne : ∀ q ∈ p::later, q ≠ []) (fresh : p ∉ later) (again : Prop) [Decidable again] :
    collected sha t ancs sibs p ++ missing sha t ancs (collected sha t ancs sibs p)
        (if again then p::later else later) = sibs ++ missing sha t ancs sibs (p::later) := by
  by_cases wanted : Wanted sha t ancs sibs p
  · have own : missing sha t ancs sibs (p::later) =
        treeRoot sha (besideEnd t p)::missing sha t ancs sibs later := by
      rw [missing,filter_cons_of_pos (by simpa using wanted)]
      rfl
    have rest : missing sha t ancs (sibs ++ [treeRoot sha (besideEnd t p)]) later =
        missing sha t ancs sibs later := by
      unfold missing
      congr 1
      refine filter_congr (fun q mem => ?_)
      have other : treeRoot sha (besideEnd t q) ≠ treeRoot sha (besideEnd t p) := by
        intro same
        have one := unique p q (ne p (.head _)) (ne q (.tail _ mem)) wanted.1 same.symm
        exact fresh (one ▸ mem)
      rw [decide_eq_decide]
      simp [Wanted,other]
    have gone : missing sha t ancs (sibs ++ [treeRoot sha (besideEnd t p)]) (p::later) =
        missing sha t ancs (sibs ++ [treeRoot sha (besideEnd t p)]) later := by
      rw [missing,filter_cons_of_neg (by simp [Wanted])]
      rfl
    rw [collected,if_pos wanted,own]
    split
    · rw [gone,rest,append_assoc]
      rfl
    · rw [rest,append_assoc]
      rfl
  · have gone : missing sha t ancs sibs (p::later) = missing sha t ancs sibs later := by
      rw [missing,filter_cons_of_neg (by simpa using wanted)]
      rfl
    rw [collected,if_neg wanted]
    split
    · rfl
    · rw [gone]

theorem collectSiblings {ancs sibs qs fuel} (sorted : Sorted qs)
    (collects : ∀ q ∈ qs, Collects sha t q) (enough : levels qs ≤ fuel) {places} (passed : Passed places (qs.map QueryProof.path)) :
    calculateSiblingHashesLoop ancs fuel sibs qs = .ok (sibs ++ missing sha t ancs sibs places) := by
  induction fuel generalizing sibs qs places with
  | zero =>
    cases qs with
    | cons q rest => simp [levels] at enough
    | nil => simp [passedNil passed,calculateSiblingHashesLoop,missing]
  | succ fuel ih =>
    cases qs with
    | nil => simp [passedNil passed,calculateSiblingHashesLoop,missing]
    | cons q rest =>
      have own := collects q (.head _)
      rw [calculateSiblingHashesLoop]
      by_cases top : q.height = 0
      · have path : q.path = [] := by rw [path,top,take_zero]
        rw [map_cons,path] at passed
        rw [if_pos top]
        refine ih (pairwise_cons.mp sorted).2 (fun r member => collects r (.tail _ member)) ?_ (passedTop passed)
        simp only [levels,map_cons,sum_cons] at enough ⊢
        omega
      · obtain ⟨p,b,ends,len,_⟩ := pathEnd own.valid top
        obtain ⟨later,rfl⟩ := passedHead sorted (fun r member => (collects r member).valid) top passed
        obtain ⟨qs,inserted,sorted',collects',fewer,paths⟩ := liftQueue sorted collects ends
        have longest : ∀ r ∈ rest.map path, r.length ≤ p.length+1 := by
          intro path member
          obtain ⟨r,inside,rfl⟩ := mem_map.mp member
          rw [pathLength (collects r (.tail _ inside)).valid,len]
          rcases (pairwise_cons.mp sorted).1 r inside with lower | ⟨same,_⟩ <;> omega
        have ne : ∀ x ∈ q.path::later, x ≠ [] := fun x member => ((passed.mem x).mp member).1
        have fresh : q.path ∉ later := fun inside => aheadIrrefl _ ((pairwise_cons.mp passed.ordered).1 _ inside)
        have up := passed
        rw [map_cons,ends] at up
        have next := @ih (collected sha t ancs sibs q.path) qs sorted' collects' (by omega) _
          (passedCongr (passedUp up longest) paths)
        rw [if_neg top,collectSiblingOk own ends]
        simp only [bind,Except.bind]
        rw [show ({q with siblingHashes := (pathHashes sha t p).siblingHashes, binaryBitmap := q.binaryBitmap.tail} : QueryProof) =
          lifted sha t q p from rfl,inserted]
        simp only
        rw [next,← ends,collectedPlace unique ne fresh]

end
end LiskEngine.Smt
