import LiskEngine.SmtSiblings

/-! Verification of the proofs that a trie gives. The verification takes the sibling
hashes in the order in which the proof lists them, and reaches the root of the tree
exactly if the queries it leaves out would not have given a hash of their own. -/
namespace LiskEngine.Smt
open List SparseTree QueryProof

variable {sha : Bytes → Bytes}

section
variable (sha : Bytes → Bytes) (t : Tree)

structure Stands (q : QueryProof) : Prop where
  valid : q.Valid
  hash : Matches sha t q.path q.hash
  bitmap : q.binaryBitmap = (pathHashes sha t q.path).binaryBitmap

end

def remaining (p : List Bool) (b : Bool) (places : List (List Bool)) : List (List Bool) :=
  places.filter (fun x => decide (x ≠ p ++ [b] ∧ x ≠ p ++ [!b]))

section
variable {q : QueryProof} {rest rest' : List QueryProof} (queue : Queue (q :: rest)) {p : List Bool} {b : Bool}
  (ends : q.path = p ++ [b]) (left : WithoutSibling (p ++ [!b]) rest rest')
include queue ends

theorem restLength : ∀ r ∈ rest, r.path.length ≤ p.length+1 := by
  intro r mem
  have len := pathLength (queue.valid q (.head _))
  rw [ends,length_append,length_singleton] at len
  rw [pathLength (queue.valid r (.tail _ mem)),len]
  rcases (pairwise_cons.mp queue.sorted).1 r mem with lower | ⟨same,_⟩ <;> omega

theorem restApart : ∀ r ∈ rest, r.path ≠ p ++ [b] := by
  intro r mem same
  have apart := ((pairwise_cons.mp queue.antichain).1 r mem).1
  rw [ends,same] at apart
  exact apart prefix_rfl

theorem deepPlace : (∃ r ∈ rest, p ++ [c] <+: r.path) ↔ p ++ [c] ∈ rest.map path := by
  constructor
  · rintro ⟨r,mem,along⟩
    have same := along.eq_of_length (le_antisymm along.length_le (by simpa using restLength queue ends r mem))
    exact same ▸ mem_map_of_mem mem
  · intro mem
    obtain ⟨r,inside,same⟩ := mem_map.mp mem
    exact ⟨r,inside,same ▸ prefix_rfl⟩

include left

omit ends in
theorem leftApart : ∀ r ∈ rest', r.path ≠ p ++ [!b] := by
  intro r mem same
  rcases left with ⟨s,rfl,path⟩ | ⟨rfl,absent⟩
  · have apart := ((pairwise_cons.mp (pairwise_cons.mp queue.antichain).2).1 r mem).1
    rw [path,same] at apart
    exact apart prefix_rfl
  · exact absent r mem same

theorem passedLeft (passed : Passed places ((q::rest).map path)) : Passed (remaining p b places) (p::rest'.map path) := by
  refine ⟨passed.ordered.sublist filter_sublist,fun x => ?_⟩
  have sub := (withoutSublist left).subset
  rw [remaining,mem_filter,passed.mem,map_cons,decide_eq_true_eq,ends]
  simp only [mem_cons,exists_eq_or_imp,mem_map,exists_exists_and_eq_and]
  constructor
  · rintro ⟨⟨ne,inside⟩,differs,ne'⟩
    refine ⟨ne,?_⟩
    rcases inside with along | ⟨r,member,along⟩
    · exact .inl ((prefix_concat_iff.mp along).resolve_left differs)
    rcases left with ⟨s,rfl,path⟩ | ⟨rfl,_⟩
    · rcases mem_cons.mp member with rfl | old
      · rw [path] at along
        exact .inl ((prefix_concat_iff.mp along).resolve_left ne')
      · exact .inr ⟨r,old,along⟩
    · exact .inr ⟨r,member,along⟩
  · rintro ⟨ne,inside⟩
    have shorter : ∀ c, x <+: p → x ≠ p ++ [c] := by
      rintro c along rfl
      have len := along.length_le
      simp at len
    rcases inside with along | ⟨r,member,along⟩
    · exact ⟨⟨ne,.inl (along.trans (prefix_append p [b]))⟩,shorter b along,shorter (!b) along⟩
    refine ⟨⟨ne,.inr ⟨r,sub member,along⟩⟩,?_,?_⟩
    · rintro rfl
      have same := along.eq_of_length (le_antisymm along.length_le (by simpa using restLength queue ends r (sub member)))
      exact restApart queue ends r (sub member) same.symm
    · rintro rfl
      have same := along.eq_of_length (le_antisymm along.length_le (by simpa using restLength queue ends r (sub member)))
      exact leftApart queue left r member same.symm

omit left in
theorem needsStep (passed : Passed places ((q::rest).map path)) :
    needs sha t places = (if p ++ [!b] ∈ rest.map path ∨ besideEnd t (p ++ [b]) = .empty then []
        else [treeRoot sha (besideEnd t (p ++ [b]))]) ++ needs sha t (remaining p b places) := by
  have validQ := queue.valid q (.head _)
  have pos : q.height ≠ 0 := by
    rw [← pathLength validQ,ends]
    simp
  obtain ⟨later,rfl⟩ := passedHead queue.sorted queue.valid pos passed
  have fresh : q.path ∉ later := fun inside => aheadIrrefl _ ((pairwise_cons.mp passed.ordered).1 _ inside)
  have queried : p ++ [!b] ∈ q.path::later ↔ p ++ [!b] ∈ rest.map path := by
    rw [passed.mem,map_cons,ends,← deepPlace queue ends]
    have other : ¬p ++ [!b] <+: p ++ [b] := by simp [prefix_append_right_inj]
    simp [other]
  have ne : ∀ x ∈ later, x ≠ [] := fun x member => ((passed.mem x).mp (.tail _ member)).1
  rw [ends] at fresh queried ⊢
  have same : ∀ x ∈ later, (decide (besideEnd t x ≠ .empty ∧ sibling x ∉ (p ++ [b])::later)) =
      (decide (besideEnd t x ≠ .empty ∧ sibling x ∉ remaining p b ((p ++ [b])::later)) &&
        decide (x ≠ p ++ [b] ∧ x ≠ p ++ [!b])) := by
    intro x member
    have twice := siblingTwice (ne x member)
    have isOwn : sibling x = p ++ [b] ↔ x = p ++ [!b] :=
      ⟨fun eq => by rw [← twice,eq,siblingConcat],fun eq => by rw [eq,siblingConcat,Bool.not_not]⟩
    have isOther : sibling x ≠ p ++ [!b] := fun eq => fresh (by
      rw [eq,siblingConcat,Bool.not_not] at twice
      rwa [twice])
    have differs : x ≠ p ++ [b] := fun eq => fresh (eq ▸ member)
    rw [← Bool.decide_and,decide_eq_decide,remaining,mem_filter,mem_cons,decide_eq_true_eq,isOwn]
    by_cases beside : x = p ++ [!b] <;> simp [beside,isOther,differs,isOwn]
  have rest' : remaining p b ((p ++ [b])::later) = remaining p b later := filter_cons_of_neg (by simp)
  have tail : later.filter (fun x => decide (besideEnd t x ≠ .empty ∧ sibling x ∉ (p ++ [b])::later)) =
      (remaining p b later).filter (fun x => decide (besideEnd t x ≠ .empty ∧ sibling x ∉ remaining p b later)) := by
    refine (filter_congr same).trans ?_
    rw [rest']
    exact filter_filter.symm
  rw [needs,needs,rest',← tail]
  by_cases needed : p ++ [!b] ∈ rest.map path ∨ besideEnd t (p ++ [b]) = .empty
  · rw [if_pos needed,filter_cons_of_neg,nil_append]
    rw [decide_eq_true_eq,siblingConcat,queried]
    exact fun both => needed.elim both.2 both.1
  · rw [if_neg needed,filter_cons_of_pos]
    · rfl
    · rw [decide_eq_true_eq,siblingConcat,queried]
      exact ⟨fun isEmpty => needed (.inr isEmpty),fun inside => needed (.inl inside)⟩

end

theorem subtreeKnown (hashing : Hashing sha S) (known : S t) (path : List Bool) : S (besideEnd t path) := by
  rw [besideEnd]
  cases hit : t.subtreeAt (sibling path) with
  | none => exact hashing.empty
  | some x => exact hashing.down x t known (subtreeAtMember hit)

theorem rootEmptyIff (hashing : Hashing sha S) (known : S x) : treeRoot sha x = emptyHash sha ↔ x = .empty :=
  ⟨fun same => hashing.unique x .empty known hashing.empty same,fun same => by rw [same]; rfl⟩

theorem standHash (stands : Stands sha t q) (ne : q.path ≠ []) : q.hash = treeRoot sha (besideEnd t (sibling q.path)) := by
  obtain ⟨x,hit,same⟩ := stands.hash
  rw [besideEnd,siblingTwice ne,hit,same]
  rfl

theorem standBitmap (stands : Stands sha t q) (ends : q.path = p ++ [b]) :
    q.binaryBitmap = decide (besideEnd t q.path ≠ .empty)::(pathHashes sha t p).binaryBitmap := by
  obtain ⟨x,hit,_⟩ := stands.hash
  have bitmap := stands.bitmap
  rw [ends] at hit bitmap ⊢
  rw [bitmap,(pathHashesUp hit).1]

theorem standTake (own : Stands sha t q) (ends : q.path = p ++ [b]) {sibs}
    (source : if besideEnd t q.path = .empty then siblingHash = emptyHash sha ∧
      siblingHashes' = sibs else sibs = siblingHash::siblingHashes') : takeSibling sha sibs q = .ok (siblingHash,siblingHashes') := by
  have bit := indexOk (i := 0) (show q.binaryBitmap[0]? = some _ by rw [standBitmap own ends]; rfl)
  unfold takeSibling
  rw [bit]
  by_cases isEmpty : besideEnd t q.path = .empty
  · rw [if_pos isEmpty] at source
    simp [isEmpty,source,bind,Except.bind]
  · rw [if_neg isEmpty] at source
    simp [isEmpty,source,bind,Except.bind]

section
variable {S : Tree → Prop} (hashing : Hashing sha S) {t : Tree} (known : S t)
include hashing known

theorem mergeStands (own : Stands sha t q) (other : Stands sha t s) (ends : q.path = p ++ [b]) (path : s.path = p ++ [!b]) :
    mergeSibling sha q s = .ok (treeRoot sha (besideEnd t q.path)) := by
  have isSibling : s.path = sibling q.path := by rw [path,ends,siblingConcat]
  have isSibling' : q.path = sibling s.path := by rw [path,ends,siblingConcat,Bool.not_not]
  have hash : s.hash = treeRoot sha (besideEnd t q.path) := by
    rw [standHash other (by rw [path]; simp),← isSibling']
  have hash' : q.hash = treeRoot sha (besideEnd t s.path) := by
    rw [standHash own (by rw [ends]; simp),← isSibling]
  have bitmap := standBitmap own ends
  have bitmap' := standBitmap other path
  have bit := indexOk (i := 0) (show q.binaryBitmap[0]? = some _ by rw [bitmap]; rfl)
  have bit' := indexOk (i := 0) (show s.binaryBitmap[0]? = some _ by rw [bitmap']; rfl)
  unfold mergeSibling
  rw [bit,bit',bitmap,bitmap',hash,hash']
  simp only [bind,Except.bind,rootEmptyIff hashing (subtreeKnown hashing known _),tail_cons]
  simp

theorem stepRuns {q rest} (queue : Queue (q::rest)) (stands : ∀ r ∈ q::rest, Stands sha t r) {p b} (ends : q.path = p ++ [b])
    {sib} (len : sib.length ≠ 0) {sibs sibs'} (source : if p ++ [!b] ∈ rest.map path ∨ besideEnd t (p ++ [b]) = .empty then
      sib = treeRoot sha (besideEnd t (p ++ [b])) ∧ sibs' = sibs else sibs = sib::sibs') :
    ∃ rest' qs, WithoutSibling (p ++ [!b]) rest rest' ∧
      calculateStep sha sibs q rest = .ok (branchData b q.hash sib,sibs',qs) ∧ Queue qs ∧
      qs.Perm (raise q (sha (branchData b q.hash sib))::rest') := by
  have own := stands q (.head _)
  have pos : q.height ≠ 0 := by
    rw [← pathLength own.valid,ends]
    simp
  obtain ⟨rest',left,hit⟩ : ∃ rest', WithoutSibling (p ++ [!b]) rest rest' ∧
      findSibling sha sibs q rest = .ok (sib,sibs',rest') := by
    rcases @findSiblingCases sha q rest queue pos p b ends sibs with ⟨s,rest',rfl,path,same⟩ | ⟨missing,same⟩
    · rw [if_pos (.inl (mem_map.mpr ⟨s,mem_cons_self,path⟩))] at source
      refine ⟨rest',.inl ⟨s,rfl,path⟩,?_⟩
      rw [same,mergeStands hashing known own (stands s (by simp)) ends path,source.1,source.2,ends]
      rfl
    · refine ⟨rest,.inr ⟨rfl,missing⟩,?_⟩
      have absent : p ++ [!b] ∉ rest.map path := by
        intro inside
        obtain ⟨r,mem,path⟩ := mem_map.mp inside
        exact missing r mem path
      have taken : takeSibling sha sibs q = .ok (sib,sibs') := by
        refine standTake own ends ?_
        rw [ends]
        by_cases isEmpty : besideEnd t (p ++ [b]) = .empty
        · rw [if_pos (.inr isEmpty),isEmpty] at source
          rw [if_pos isEmpty]
          exact source
        · rw [if_neg (·.elim absent isEmpty)] at source
          rw [if_neg isEmpty]
          exact source
      rw [same,taken]
      rfl
  obtain ⟨p',b',ends',_,_,last⟩ := pathEnd own.valid pos
  obtain ⟨rfl,rfl⟩ : p' = p ∧ b' = b := by simpa using append_inj' (ends'.symm.trans ends) rfl
  obtain ⟨qs,inserted,queue',perm⟩ := raiseQueue queue ends left (sha (branchData b' q.hash sib))
  refine ⟨rest',qs,left,?_,queue',perm⟩
  unfold calculateStep
  rw [hit]
  simp only [bind,Except.bind,if_neg len,last]
  rw [show ({q with hash := sha (branchData b' q.hash sib), binaryBitmap := q.binaryBitmap.tail} : QueryProof) =
    raise q (sha (branchData b' q.hash sib)) from rfl,inserted]

omit hashing known in
theorem raiseStands (own : Stands sha t q) (ends : q.path = p ++ [b]) :
    Stands sha t (raise q (sha (branchData b q.hash (treeRoot sha (besideEnd t (p ++ [b])))))) := by
  obtain ⟨x,hit,hash⟩ := own.hash
  rw [ends] at hit
  obtain ⟨l,r,parent,isChild,other⟩ := besideParent hit
  obtain ⟨path,valid⟩ := raisePath own.valid ends (sha (branchData b q.hash (treeRoot sha (besideEnd t (p ++ [b])))))
  refine ⟨valid,⟨.node l r,by rw [path]; exact parent,?_⟩,?_⟩
  · rw [raise,hash,other,isChild]
    cases b <;> rfl
  rw [path]
  show q.binaryBitmap.tail = _
  rw [standBitmap own ends]
  rfl

omit hashing known in
theorem stepStands (queue : Queue (q::rest)) (stands : ∀ r ∈ q::rest, Stands sha t r)
    (ends : q.path = p ++ [b]) (left : WithoutSibling (p ++ [!b]) rest rest')
    (perm : queries.Perm (raise q (sha (branchData b q.hash (treeRoot sha (besideEnd t (p ++ [b])))))::rest'))
    (passed : Passed places ((q::rest).map path)) :
    (∀ r ∈ queries, Stands sha t r) ∧ Passed (remaining p b places) (queries.map path) ∧ levels queries+1 ≤ levels (q::rest) := by
  have own := stands q (.head _)
  have raised := raiseStands own ends
  have path := (raisePath own.valid ends (sha (branchData b q.hash (treeRoot sha (besideEnd t (p ++ [b])))))).1
  refine ⟨fun r mem => ?_,passedCongr (passedLeft queue ends left passed) (fun x => ?_),?_⟩
  · rcases mem_cons.mp (perm.mem_iff.mp mem) with rfl | old
    · exact raised
    · exact stands r (.tail _ ((withoutSublist left).subset old))
  · rw [(perm.map _).mem_iff,map_cons,path]
  · have pos : q.height ≠ 0 := by
      rw [← pathLength own.valid,ends]
      simp
    have fewer : levels rest' ≤ levels rest := by
      rcases left with ⟨s,rfl,_⟩ | ⟨rfl,_⟩
      · simp [levels]
      · exact le_refl _
    rw [levelsPerm perm]
    simp only [levels,map_cons,sum_cons,raiseHeight] at fewer ⊢
    omega

theorem rootComplete (size : hashSize sha ≠ 0) (filled : qs ≠ []) (queue : Queue qs)
    (stands : ∀ r ∈ qs, Stands sha t r) (enough : levels qs ≤ fuel) (passed : Passed places (qs.map path)) :
    calculateRootLoop sha fuel (needs sha t places) qs = .ok (treeRoot sha t) := by
  induction fuel generalizing qs places with
  | zero =>
    cases qs with
    | nil => exact absurd rfl filled
    | cons q rest => simp [levels] at enough
  | succ fuel ih =>
    cases qs with
    | nil => exact absurd rfl filled
    | cons q rest =>
      have own := stands q (.head _)
      rw [calculateRootLoop]
      by_cases top : q.height = 0
      · obtain ⟨x,hit,hash⟩ := own.hash
        rw [(queueTop queue top).2,subtreeAtNil] at hit
        rw [if_pos top,hash,Option.some.inj hit]
      · obtain ⟨p,b,ends,_⟩ := pathEnd own.valid top
        have len : (treeRoot sha (besideEnd t (p ++ [b]))).length ≠ 0 := by rwa [treeRootLength hashing.size]
        obtain ⟨rest',qs,left,step,queue',perm⟩ := @stepRuns sha S hashing t known q rest queue stands
          p b ends _ len (needs sha t places) (needs sha t (remaining p b places)) (by
            rw [needsStep queue ends passed]
            split
            · exact ⟨rfl,rfl⟩
            · rfl)
        obtain ⟨stands',passed',fewer⟩ := stepStands queue stands ends left perm passed
        have more : qs ≠ [] := fun absent => by simp [absent] at perm
        rw [if_neg top,step]
        exact ih more queue' stands' (by omega) passed'

end

theorem needsTaken (hashing : Hashing sha S) (known : S t) (size : hashSize sha ≠ 0)
    (free : CollisionFree sha strings) (inside : ∀ x ∈ t.subtrees, preimageBytes (x.preimage (digest sha)) ∈ strings)
    {sibs} (queue : Queue qs) (stands : ∀ r ∈ qs, Stands sha t r)
    (hashed : ∀ data ∈ rootStrings sha fuel sibs qs, data ∈ strings) (passed : Passed places (qs.map path))
    (ok : calculateRootLoop sha fuel sibs qs = .ok (treeRoot sha t)) : needs sha t places <+: sibs := by
  induction fuel generalizing sibs qs places with
  | zero => cases qs <;> cases ok
  | succ fuel ih =>
    cases qs with
    | nil => cases ok
    | cons q rest =>
      have own := stands q (.head _)
      rw [calculateRootLoop] at ok
      rw [rootStrings] at hashed
      by_cases top : q.height = 0
      · obtain ⟨rfl,path⟩ := queueTop queue top
        rw [map_cons,path] at passed
        rw [passedNil (passedTop passed)]
        exact nil_prefix
      · obtain ⟨p,b,ends,_⟩ := pathEnd own.valid top
        rw [if_neg top] at ok hashed
        rw [needsStep queue ends passed]
        by_cases given : p ++ [!b] ∈ rest.map path ∨ besideEnd t (p ++ [b]) = .empty
        · have len : (treeRoot sha (besideEnd t (p ++ [b]))).length ≠ 0 := by rwa [treeRootLength hashing.size]
          obtain ⟨rest',qs,left,step,queue',perm⟩ := @stepRuns sha S hashing t known q rest queue stands
            p b ends _ len sibs sibs (by rw [if_pos given]; exact ⟨rfl,rfl⟩)
          obtain ⟨stands',passed',_⟩ := stepStands queue stands ends left perm passed
          rw [step] at ok hashed
          rw [if_pos given]
          exact ih queue' stands' (fun data mem => hashed data (.tail _ mem)) passed' ok
        · obtain ⟨⟨data,sibs',qs⟩,step,ok⟩ := bindOk ok
          rw [step] at hashed
          obtain ⟨sib,rest',source,rfl,queue',perm⟩ := calculateStepOk queue top ends step
          have left := sourceWithout source
          have sizes : ∀ r ∈ qs, r.hash.length = hashSize sha := by
            intro r mem
            rcases mem_cons.mp (perm.mem_iff.mp mem) with rfl | old
            · exact hashing.size _
            · obtain ⟨x,_,hash⟩ := (stands r (.tail _ ((withoutSublist left).subset old))).hash
              rw [hash,treeRootLength hashing.size]
          have later := fun data mem => hashed data (.tail _ mem)
          have above := rootMatches free hashing.size inside queue' sizes later ok _ (perm.mem_iff.mpr (.head _))
          rw [(raisePath own.valid ends _).1] at above
          obtain ⟨x,_,hash⟩ := own.hash
          obtain ⟨_,y,hit,same⟩ := matchesBranch free hashing.size inside
            (by rw [hash,treeRootLength hashing.size]) (hashed _ (.head _)) above
          have isBeside : besideEnd t (p ++ [b]) = y := by rw [besideEnd,siblingConcat,hit]; rfl
          rw [← isBeside] at same
          rw [if_neg given]
          rcases source with ⟨s,rfl,path,_⟩ | ⟨_,_,⟨isEmpty,_⟩ | taken⟩
          · exact absurd (.inl (mem_map.mpr ⟨s,mem_cons_self,path⟩)) given
          · rw [isEmpty] at same
            exact absurd (.inr ((rootEmptyIff hashing (subtreeKnown hashing known _)).mp same.symm)) given
          · rw [same] at perm
            obtain ⟨stands',passed',_⟩ := stepStands queue stands ends left perm passed
            rw [taken,same]
            exact (prefix_append_right_inj _).mpr (ih queue' stands' later passed' ok)

section
variable {t : Tree} {paths kept : List (List Bool)}

def Tips (t : Tree) (paths : List (List Bool)) : Prop := ∀ p ∈ paths, ∃ x, t.subtreeAt p = some x ∧ ∀ l r, x ≠ .node l r

def Harmless (t : Tree) (paths kept : List (List Bool)) : Prop :=
  ∀ p ∈ paths, p ∈ kept ∨ (t.subtreeAt p = some .empty ∧ ∃ q ∈ kept, p.dropLast <+: q)

variable (tips : Tips t paths) (sub : ∀ p ∈ kept, p ∈ paths)
include tips sub

theorem keptBelow (hit : t.subtreeAt (y ++ [b]) = some x) (isKept : q ∈ kept) (along : y <+: q) :
    y ++ [b] <+: q ∨ y ++ [!b] <+: q := by
  obtain ⟨tip,place,isTip⟩ := tips q (sub q isKept)
  obtain ⟨more,rfl⟩ := along
  cases more with
  | nil =>
    rw [append_nil] at place
    have same := tipEnds isTip place hit (prefix_append y [b])
    simp at same
  | cons c more =>
    rw [show y ++ c::more = y ++ [c] ++ more by simp]
    by_cases bit : c = b
    · exact .inl (bit ▸ prefix_append _ _)
    · have other : c = !b := by cases b <;> cases c <;> simp_all
      exact .inr (other ▸ prefix_append _ _)

variable {places keptPlaces : List (List Bool)} (passed : Passed places paths) (passed' : Passed keptPlaces kept)
include passed passed'

omit tips in
theorem keptPassed (inside : p ∈ keptPlaces) : p ∈ places := by
  obtain ⟨ne,q,isKept,along⟩ := (passed'.mem p).mp inside
  exact (passed.mem p).mpr ⟨ne,q,sub q isKept,along⟩

theorem needsKept (harmless : Harmless t paths kept) : needs sha t keptPlaces = needs sha t places := by
  have lost : ∀ p ∈ places, p ∉ keptPlaces → t.subtreeAt p = some .empty ∧ p ∈ paths ∧ ∃ q ∈ kept, p.dropLast <+: q := by
    intro p inside absent
    obtain ⟨ne,d,listed,along⟩ := (passed.mem p).mp inside
    rcases harmless d listed with isKept | ⟨isEmpty,q,isKept,above⟩
    · exact absurd ((passed'.mem p).mpr ⟨ne,d,isKept,along⟩) absent
    have whole : p = d := by
      obtain ⟨d',b,rfl⟩ := pathSplit (show d ≠ [] from fun missing => ne (prefix_nil.mp (missing ▸ along)))
      rw [dropLast_concat] at above
      refine (prefix_concat_iff.mp along).resolve_right (fun shorter => absent ?_)
      exact (passed'.mem p).mpr ⟨ne,q,isKept,shorter.trans above⟩
    exact whole ▸ ⟨isEmpty,listed,q,isKept,above⟩
  unfold needs
  congr 1
  refine orderedUnique (passed'.ordered.sublist filter_sublist) (passed.ordered.sublist filter_sublist) (fun p => ?_)
  simp only [mem_filter,decide_eq_true_eq]
  constructor
  · rintro ⟨inside,filled,absent⟩
    refine ⟨keptPassed sub passed passed' inside,filled,fun queried => ?_⟩
    have isEmpty := (lost _ queried absent).1
    exact filled (by rw [besideEnd,isEmpty]; rfl)
  · rintro ⟨inside,filled,absent⟩
    refine ⟨?_,filled,fun queried => absent (keptPassed sub passed passed' queried)⟩
    by_contra gone
    obtain ⟨isEmpty,_,q,isKept,above⟩ := lost p inside gone
    obtain ⟨y,b,rfl⟩ := pathSplit ((passed.mem p).mp inside).1
    rw [dropLast_concat] at above
    rw [siblingConcat] at absent
    rcases keptBelow tips sub isEmpty isKept above with own | other
    · exact gone ((passed'.mem _).mpr ⟨by simp,q,isKept,own⟩)
    · exact absent ((passed.mem _).mpr ⟨by simp,q,sub q isKept,other⟩)

omit tips sub passed passed' in
theorem firstAbsent (ne : d ≠ []) (absent : d ∉ keptPlaces) :
    ∃ y b, y ++ [b] <+: d ∧ y ++ [b] ∉ keptPlaces ∧ (y = [] ∨ y ∈ keptPlaces) := by
  induction d using reverseRecOn with
  | nil => exact absurd rfl ne
  | append_singleton y b ih =>
    by_cases above : y = [] ∨ y ∈ keptPlaces
    · exact ⟨y,b,prefix_rfl,absent,above⟩
    · obtain ⟨y',b',along,rest⟩ := ih (fun missing => above (.inl missing)) (fun inside => above (.inr inside))
      exact ⟨y',b',along.trans (prefix_append y [b]),rest⟩

theorem needsLost (unique : OneBeside sha t) (found : kept ≠ []) (harm : ¬Harmless t paths kept) :
    ¬needs sha t keptPlaces <+: needs sha t places := by
  intro listed
  refine harm (fun d inside => ?_)
  by_contra lost
  rw [not_or] at lost
  obtain ⟨x,place,isTip⟩ := tips d inside
  have absent : d ∉ keptPlaces := by
    intro passes
    obtain ⟨_,q,isKept,along⟩ := (passed'.mem d).mp passes
    obtain ⟨_,place',_⟩ := tips q (sub q isKept)
    exact lost.1 (tipEnds isTip place place' along ▸ isKept)
  obtain ⟨k,isKept⟩ := exists_mem_of_ne_nil kept found
  have ne : d ≠ [] := by
    rintro rfl
    obtain ⟨_,place',_⟩ := tips k (sub k isKept)
    exact lost.1 (tipEnds isTip place place' nil_prefix ▸ isKept)
  obtain ⟨y,b,along,gone,above⟩ := firstAbsent ne absent
  obtain ⟨q,isKept,toParent⟩ : ∃ q ∈ kept, y <+: q := by
    rcases above with rfl | passes
    · exact ⟨k,isKept, nil_prefix⟩
    · exact ((passed'.mem y).mp passes).2
  obtain ⟨z,child⟩ := subtreeAtPrefix place along
  have beside : y ++ [!b] <+: q := by
    refine (keptBelow tips sub child isKept toParent).resolve_left (fun own => gone ?_)
    exact (passed'.mem _).mpr ⟨by simp,q,isKept,own⟩
  have isBeside : besideEnd t (y ++ [!b]) = z := by
    rw [besideEnd,siblingConcat,Bool.not_not,child]
    rfl
  have filled : z ≠ .empty := by
    rintro rfl
    have whole := tipEnds (by simp) child place along
    subst whole
    exact lost.2 ⟨child,q,isKept,by rwa [dropLast_concat]⟩
  have needed : treeRoot sha z ∈ needs sha t keptPlaces := by
    refine mem_map.mpr ⟨y ++ [!b],mem_filter.mpr ⟨(passed'.mem _).mpr ⟨by simp,q,isKept,beside⟩,?_⟩,by rw [isBeside]⟩
    rw [decide_eq_true_eq,isBeside,siblingConcat,Bool.not_not]
    exact ⟨filled,gone⟩
  obtain ⟨p,member,same⟩ := mem_map.mp (listed.subset needed)
  obtain ⟨passes,free⟩ := mem_filter.mp member
  rw [decide_eq_true_eq] at free
  rw [← isBeside] at same
  rw [unique p (y ++ [!b]) ((passed.mem p).mp passes).1 (by simp) free.1 same,siblingConcat,Bool.not_not] at free
  exact free.2 ((passed.mem _).mpr ⟨by simp,d,inside,along⟩)

end
end LiskEngine.Smt
