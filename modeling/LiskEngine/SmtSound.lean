import LiskEngine.SmtQueue
import LiskEngine.SmtRoot

/-! Verification of a proof against the root of a map. Read backwards from the
computed root, every query that is folded in matches the subtree at the end of its
path. Queries that the verification leaves out are not checked at all: the answers
are right where no two different queries get in each other's way. -/
namespace LiskEngine.Smt
open List SparseTree

section
variable (sha : Bytes → Bytes)

def rootStrings : Nat → List Bytes → List QueryProof → List Bytes
  | _, _, [] => []
  | 0, _, _ :: _ => []
  | fuel + 1, siblingHashes, query :: queries =>
    if query.height = 0 then []
    else
      match calculateStep sha siblingHashes query queries with
      | .ok (data, siblingHashes, queries) => data :: rootStrings fuel siblingHashes queries
      | .error _ => []

def leafStrings (queries : List QueryProof) : List Bytes :=
  (queries.filter (fun q => q.value.length ≠ 0)).map (fun q => 0 :: (q.key ++ q.value))

def verifyStrings (proof : Proof) : List Bytes :=
  match filterProofs sha [] proof.queries with
  | .ok filtered => leafStrings filtered ++ rootStrings sha (levels filtered) proof.siblingHashes (sortQueries filtered)
  | .error _ => []

def Matches (t : Tree) (path : List Bool) (hash : Bytes) : Prop := ∃ x, t.subtreeAt path = some x ∧ hash = treeRoot sha x

end

variable {sha : Bytes → Bytes}

theorem takeSiblingOk (ok : takeSibling sha siblingHashes q = .ok (siblingHash,rest)) :
    (siblingHash = emptyHash sha ∧ rest = siblingHashes) ∨ siblingHashes = siblingHash::rest := by
  obtain ⟨bit,_,ok⟩ := bindOk ok
  cases bit with
  | false =>
    cases ok
    exact .inl ⟨rfl,rfl⟩
  | true =>
    cases siblingHashes with
    | nil => cases ok
    | cons h hs =>
      cases ok
      exact .inr rfl

theorem mergeSiblingOk (ok : mergeSibling sha q s = .ok siblingHash) : siblingHash = s.hash := by
  obtain ⟨bit,_,ok⟩ := bindOk ok
  split at ok
  · cases ok
  obtain ⟨bit',_,ok⟩ := bindOk ok
  split at ok
  · cases ok
  split at ok
  · cases ok
  · cases ok
    rfl

def SiblingSource (sha : Bytes → Bytes) (sibling : List Bool) (siblingHash : Bytes) (siblingHashes siblingHashes' : List Bytes)
    (rest rest' : List QueryProof) : Prop :=
  (∃ s, rest = s :: rest' ∧ s.path = sibling ∧ siblingHash = s.hash ∧ siblingHashes' = siblingHashes) ∨
  (rest' = rest ∧ (∀ s ∈ rest, s.path ≠ sibling) ∧
    ((siblingHash = emptyHash sha ∧ siblingHashes' = siblingHashes) ∨ siblingHashes = siblingHash :: siblingHashes'))

theorem sourceWithout {sibling} (source : SiblingSource sha sibling siblingHash siblingHashes siblingHashes' rest rest') :
    WithoutSibling sibling rest rest' := by
  rcases source with ⟨s,shape,path,_⟩ | ⟨same,absent,_⟩
  · exact .inl ⟨s,shape,path⟩
  · exact .inr ⟨same,absent⟩

theorem calculateStepOk (queue : Queue (q::rest)) (pos : q.height ≠ 0) (ends : q.path = p ++ [b])
    (ok : calculateStep sha siblingHashes q rest = .ok (data,siblingHashes',queries)) :
    ∃ sib rest', SiblingSource sha (p ++ [!b]) sib siblingHashes siblingHashes' rest rest' ∧
      data = branchData b q.hash sib ∧ Queue queries ∧ queries.Perm (raise q (sha data)::rest') := by
  obtain ⟨⟨sib,siblings,rest'⟩,hit,ok⟩ := bindOk ok
  simp only at ok
  split at ok
  · cases ok
  obtain ⟨dir,direction,ok⟩ := bindOk ok
  obtain ⟨inserted,insertion,ok⟩ := bindOk ok
  cases ok
  have source : SiblingSource sha (p ++ [!b]) sib siblingHashes siblingHashes' rest rest' := by
    rcases findSiblingCases queue pos ends siblingHashes with ⟨s,left,rfl,path,same⟩ | ⟨absent,same⟩
    · rw [same] at hit
      obtain ⟨h,merged,hit⟩ := bindOk hit
      cases hit
      exact .inl ⟨s,rfl,path,mergeSiblingOk merged,rfl⟩
    · rw [same] at hit
      obtain ⟨⟨h,hs⟩,taken,hit⟩ := bindOk hit
      cases hit
      exact .inr ⟨rfl,absent,takeSiblingOk taken⟩
  obtain ⟨p',b',ends',_,_,last⟩ := pathEnd (queue.valid q (by simp)) pos
  obtain ⟨rfl,rfl⟩ : p' = p ∧ b' = b := by simpa using append_inj' (ends'.symm.trans ends) rfl
  rw [last] at direction
  cases direction
  obtain ⟨qs',insertion',queue',perm⟩ := raiseQueue queue ends (sourceWithout source)
    (sha (branchData dir q.hash sib))
  have same : qs' = queries := by
    have both := insertion'.symm.trans insertion
    injection both
  subst same
  exact ⟨sib,rest',source,rfl,queue',perm⟩

theorem matchesBranch {strings} (free : CollisionFree sha strings) (size : ∀ data, (sha data).length = hashSize sha) {t}
    (known : ∀ x ∈ t.subtrees, preimageBytes (x.preimage (digest sha)) ∈ strings) {p b hash sib}
    (length : hash.length = hashSize sha) (hashed : branchData b hash sib ∈ strings)
    (isMatch : Matches sha t p (sha (branchData b hash sib))) : Matches sha t (p ++ [b]) hash ∧ Matches sha t (p ++ [!b]) sib := by
  obtain ⟨x,hit,same⟩ := isMatch
  have strings : branchData b hash sib = preimageBytes (x.preimage (digest sha)) := by
    refine free _ hashed _ (known x (subtreeAtMember hit)) ?_
    rw [same,treeRoot,rootPreimage]
    rfl
  cases x with
  | empty | leaf key value => cases b <;> simp [branchData,preimage,preimageBytes] at strings
  | node l r =>
    have left := treeRootLength size l
    have right := treeRootLength size r
    have below : ∀ c, t.subtreeAt (p ++ [c]) = some (if c then r else l) := by
      intro c
      rw [subtreeAtAppend,hit]
      cases c
      · cases l <;> rfl
      · cases r <;> rfl
    cases b with
    | false =>
      simp only [branchData,preimage,preimageBytes,Bool.false_eq_true,if_false,cons.injEq,true_and] at strings
      obtain ⟨own,other⟩ := append_inj strings (length.trans left.symm)
      exact ⟨⟨l,below false,own⟩,⟨r,below true,other⟩⟩
    | true =>
      simp only [branchData,preimage,preimageBytes,if_true,cons.injEq,true_and] at strings
      obtain ⟨other,own⟩ := append_inj' strings (length.trans right.symm)
      exact ⟨⟨r,below true,own⟩,⟨l,below false,other⟩⟩

section
variable {strings : List Bytes} (free : CollisionFree sha strings) (size : ∀ data, (sha data).length = hashSize sha)
  {t : Tree} (known : ∀ x ∈ t.subtrees, preimageBytes (x.preimage (digest sha)) ∈ strings)
include free size known

theorem stepMatches (queue : Queue (q::rest)) (pos : q.height ≠ 0) (sizes : ∀ r ∈ q::rest, r.hash.length = hashSize sha)
    (ok : calculateStep sha siblingHashes q rest = .ok (data,siblingHashes',queries)) (hashed : data ∈ strings) :
    Queue queries ∧ (∀ r ∈ queries, r.hash.length = hashSize sha) ∧
      ((∀ r ∈ queries, Matches sha t r.path r.hash) → ∀ r ∈ q::rest, Matches sha t r.path r.hash) := by
  have validQ := queue.valid q (by simp)
  obtain ⟨p,b,ends,_⟩ := pathEnd validQ pos
  obtain ⟨sib,rest',source,rfl,queue',perm⟩ := calculateStepOk queue pos ends ok
  have sub := (withoutSublist (sourceWithout source)).subset
  refine ⟨queue',fun r mem => ?_,fun matches' r mem => ?_⟩
  · rcases mem_cons.mp (perm.mem_iff.mp mem) with rfl | old
    · exact size _
    · exact sizes r (.tail _ (sub old))
  · have top := matches' (raise q _) (perm.mem_iff.mpr (.head _))
    rw [(raisePath validQ ends _).1] at top
    obtain ⟨own,other⟩ := matchesBranch free size known (sizes q (by simp)) hashed top
    rcases mem_cons.mp mem with rfl | later
    · rw [ends]
      exact own
    rcases source with ⟨s,rfl,path,rfl,_⟩ | ⟨rfl,_⟩
    · rcases mem_cons.mp later with rfl | old
      · rw [path]
        exact other
      · exact matches' r (perm.mem_iff.mpr (.tail _ old))
    · exact matches' r (perm.mem_iff.mpr (.tail _ later))

theorem rootMatches (queue : Queue qs) (sizes : ∀ r ∈ qs, r.hash.length = hashSize sha)
    (hashed : ∀ data ∈ rootStrings sha fuel siblingHashes qs, data ∈ strings)
    (ok : calculateRootLoop sha fuel siblingHashes qs = .ok (treeRoot sha t)) : ∀ r ∈ qs, Matches sha t r.path r.hash := by
  induction fuel generalizing siblingHashes qs with
  | zero => cases qs <;> cases ok
  | succ fuel ih =>
    cases qs with
    | nil => cases ok
    | cons q rest =>
      simp only [calculateRootLoop] at ok
      simp only [rootStrings] at hashed
      split at ok
      · rename_i top
        obtain ⟨rfl,path⟩ := queueTop queue top
        intro r mem
        cases mem_singleton.mp mem
        injection ok with same
        exact ⟨t,by rw [path]; cases t <;> rfl,same⟩
      · rename_i pos
        obtain ⟨⟨data,siblings,qs⟩,step,ok⟩ := bindOk ok
        rw [if_neg pos,step] at hashed
        obtain ⟨queue',sizes',backwards⟩ := stepMatches free size known queue pos sizes step
          (hashed data (.head _))
        exact backwards (ih queue' sizes' (fun data mem => hashed data (.tail _ mem)) ok)

end
def Query.path (q : Query) : List Bool := (toBools q.key).take (stripPrefixFalse (toBools q.bitmap)).length

theorem commonPrefixTake (fit : n ≤ (commonPrefix a b).length) : a.take n = b.take n := by
  induction a, b using commonPrefix.induct generalizing n with
  | case1 a as bs ih =>
    rw [commonPrefix,if_pos rfl,length_cons] at fit
    cases n with
    | zero => rfl
    | succ n => rw [take_succ_cons,take_succ_cons,ih (by omega)]
  | case2 a as b bs differ =>
    rw [commonPrefix,if_neg differ,length_nil,Nat.le_zero] at fit
    subst fit
    rfl
  | case3 as bs other =>
    rw [commonPrefix.eq_2 _ _ other,length_nil,Nat.le_zero] at fit
    subst fit
    rfl

theorem checkQueriesOk (ok : checkQueries len seen pairs = .ok true) : ∀ e ∈ pairs, e.1.length = len ∧
      (toBools e.1).take (stripPrefixFalse (toBools e.2.bitmap)).length = e.2.path := by
  induction pairs generalizing seen with
  | nil => simp
  | cons pair rest ih =>
    obtain ⟨key,query⟩ := pair
    simp only [checkQueries] at ok
    split at ok
    · cases ok
    rename_i sized
    split at ok
    · cases ok
    split at ok
    · cases ok
    have length := not_not.mp sized
    split at ok
    · rename_i same
      intro e mem
      rcases mem_cons.mp mem with rfl | later
      · exact ⟨length,by rw [Query.path,same]⟩
      · exact ih ok e later
    · split at ok
      · cases ok
      rename_i fit
      intro e mem
      rcases mem_cons.mp mem with rfl | later
      · exact ⟨length,commonPrefixTake (Nat.le_of_not_lt fit)⟩
      · exact ih ok e later

structure Filtered (sha : Bytes → Bytes) (seen : List Bytes) (queries : List Query) (filtered : List QueryProof) : Prop where
  kept : ∀ f ∈ filtered, ∃ q ∈ queries, f = queryProofOf sha q ∧ fromBools q.path ∉ seen
  valid : ∀ q ∈ queries, (queryProofOf sha q).Valid
  distinct : filtered.Pairwise (fun a b => fromBools a.path ≠ fromBools b.path)
  stands : ∀ q ∈ queries, fromBools q.path ∈ seen ∨ ∃ f ∈ filtered, fromBools f.path = fromBools q.path

theorem binaryPathValid {q : QueryProof} {path} (ok : q.binaryPath = .ok path) : q.Valid ∧ path = q.path := by
  unfold QueryProof.binaryPath at ok
  split at ok
  · cases ok
  · rename_i valid
    cases ok
    exact ⟨Nat.le_of_not_lt valid,rfl⟩

theorem filterProofsOk {seen : List Bytes} {qs filtered} (ok : filterProofs sha seen qs = .ok filtered) :
    Filtered sha seen qs filtered := by
  induction qs generalizing seen filtered with
  | nil =>
    cases ok
    exact ⟨by simp,by simp,List.Pairwise.nil,by simp⟩
  | cons q rest ih =>
    obtain ⟨path,isPath,ok⟩ := bindOk ok
    obtain ⟨valid,rfl⟩ := binaryPathValid isPath
    split at ok
    · rename_i old
      have later := ih ok
      refine ⟨fun f mem => ?_,?_,later.distinct,?_⟩
      · obtain ⟨q',inside,shape⟩ := later.kept f mem
        exact ⟨q',mem_cons_of_mem _ inside,shape⟩
      · exact forall_mem_cons.mpr ⟨valid,later.valid⟩
      · exact forall_mem_cons.mpr ⟨.inl old,later.stands⟩
    · rename_i new
      obtain ⟨proofs,made,ok⟩ := bindOk ok
      cases ok
      have later := ih made
      refine ⟨fun f mem => ?_,forall_mem_cons.mpr ⟨valid,later.valid⟩,?_,?_⟩
      · rcases mem_cons.mp mem with rfl | old
        · exact ⟨q,mem_cons_self,rfl,new⟩
        · obtain ⟨q',inside,shape,fresh⟩ := later.kept f old
          exact ⟨q',mem_cons_of_mem _ inside,shape,fun bad => fresh (.tail _ bad)⟩
      · refine pairwise_cons.mpr ⟨fun f mem same => ?_,later.distinct⟩
        obtain ⟨q',_,rfl,fresh⟩ := later.kept f mem
        exact fresh (same ▸ mem_cons_self)
      · refine forall_mem_cons.mpr ⟨.inr ⟨_,mem_cons_self,rfl⟩,fun q' inside => ?_⟩
        rcases later.stands q' inside with old | ⟨f,mem,same⟩
        · rcases mem_cons.mp old with same | older
          · exact .inr ⟨_,mem_cons_self,same.symm⟩
          · exact .inl older
        · exact .inr ⟨f,mem_cons_of_mem _ mem,same⟩

theorem onPathTake (key : Bytes) (n d : Nat) : SparseTree.OnPath keyBit d (((toBools key).drop d).take n) key := by
  induction n generalizing d with
  | zero => trivial
  | succ n ih =>
    by_cases inside : d < 8*key.length
    · have bit := toBoolsBit inside
      rw [getElem?_eq_some_iff] at bit
      obtain ⟨fit,bit⟩ := bit
      rw [drop_eq_getElem_cons fit,take_succ_cons]
      exact ⟨bit.symm,ih (d+1)⟩
    · rw [drop_of_length_le (by rw [toBoolsLength]; omega)]
      trivial

theorem matchesEmpty (free : CollisionFree sha strings) (nil : [] ∈ strings)
    (known : ∀ x ∈ t.subtrees, preimageBytes (x.preimage (digest sha)) ∈ strings)
    (isMatch : Matches sha t path (emptyHash sha)) : t.subtreeAt path = some .empty := by
  obtain ⟨x,hit,same⟩ := isMatch
  have strings := free _ nil _ (known x (subtreeAtMember hit)) (same.trans (rootPreimage _ x))
  cases x with
  | empty => exact hit
  | leaf key value | node l r => simp [preimage,preimageBytes] at strings

theorem matchesLeaf (free : CollisionFree sha strings) (hashed : 0::(key ++ value) ∈ strings)
    (known : ∀ x ∈ t.subtrees, preimageBytes (x.preimage (digest sha)) ∈ strings)
    (sized : ∀ e ∈ t.entries, e.1.length = key.length) (isMatch : Matches sha t path (leafHash sha key value)) :
    t.subtreeAt path = some (.leaf key value) := by
  obtain ⟨x,hit,same⟩ := isMatch
  have inside := subtreeAtMember hit
  have strings := free _ hashed _ (known x inside) (same.trans (rootPreimage _ x))
  cases x with
  | empty | node l r => simp [preimage,preimageBytes] at strings
  | leaf key' value' =>
    simp only [preimage,preimageBytes,cons.injEq,true_and] at strings
    have length := sized (key',value') (subtreeEntries inside _ (mem_singleton.mpr rfl))
    obtain ⟨rfl,rfl⟩ := append_inj strings length.symm
    exact hit

def RightAnswer (m : KeyValueMap) (key : Bytes) (query : Query) : Prop :=
  (query.key = key → m.get key = if query.value = [] then none else some query.value) ∧
    (query.key ≠ key → m.get key = none)

/-- Two queries at one place that state the same about it. -/
def Query.Agree (q q' : Query) : Prop := q.path = q'.path ∧ q.value = q'.value ∧ (q.value = [] ∨ q.key = q'.key)

instance (q q' : Query) : Decidable (q.Agree q') := by
  unfold Query.Agree
  infer_instance

structure SeparateQueries (keyLength : Nat) (proof : Proof) : Prop where
  lengths : ∀ q ∈ proof.queries, q.value ≠ [] → q.key.length = keyLength
  apart : ∀ q ∈ proof.queries, ∀ q' ∈ proof.queries, q.Agree q' ∨ ¬q.path <+: q'.path ∧ fromBools q.path ≠ fromBools q'.path

theorem filteredQueue (separate : SeparateQueries len proof) (kept : Filtered sha [] proof.queries filtered) :
    Queue (sortQueries filtered) where
  sorted := sortQueriesSorted filtered
  valid q member := by
    obtain ⟨q',inside,rfl,_⟩ := kept.kept q ((sortQueriesPerm filtered).mem_iff.mp member)
    exact kept.valid q' inside
  antichain := by
    refine (sortQueriesPerm filtered).symm.pairwise ?_ incomparableSymm
    refine kept.distinct.imp_of_mem (fun {a b} left right differ => ?_)
    obtain ⟨q,inside,rfl,_⟩ := kept.kept a left
    obtain ⟨q',inside',rfl,_⟩ := kept.kept b right
    have other : q.path ≠ q'.path := fun same => differ (congrArg fromBools same)
    exact ⟨((separate.apart q inside q' inside').resolve_left (fun agree => other agree.1)).1,
      ((separate.apart q' inside' q inside).resolve_left (fun agree => other agree.1.symm)).1⟩

theorem answerAt (keys : ∀ e ∈ m.entries, e.1.length = len) (hit : (mapTree len m).subtreeAt path = some x)
    (along : SparseTree.OnPath keyBit 0 path key) (value : Bytes) : m.get key = some value ↔ (key,value) ∈ x.entries := by
  have apart := apartOf (keySeparated len) keys (mapDistinct m)
  rw [← OrderedMap.memIffGet,subtreeAtEntries apart hit]
  exact ⟨fun mem => ⟨mem,along⟩,fun mem => mem.1⟩

theorem answerRight (keys : ∀ e ∈ m.entries, e.1.length = len) (along : SparseTree.OnPath keyBit 0 query.path key)
    (hit : (mapTree len m).subtreeAt query.path = some (if query.value = [] then .empty else .leaf query.key query.value)) :
    RightAnswer m key query := by
  have answer := answerAt keys hit along
  by_cases empty : query.value = []
  · rw [if_pos empty] at answer
    have absent : m.get key = none := by
      cases got : m.get key with
      | none => rfl
      | some value => exact absurd ((answer value).mp got) (by simp [entries])
    exact ⟨fun _ => by rw [if_pos empty]; exact absent,fun _ => absent⟩
  · rw [if_neg empty] at answer
    refine ⟨fun same => ?_,fun ne => ?_⟩
    · rw [if_neg empty]
      exact (answer query.value).mpr (by rw [same]; exact mem_singleton.mpr rfl)
    cases got : m.get key with
    | none => rfl
    | some value =>
      have one := mem_singleton.mp ((answer value).mp got)
      exact absurd (congrArg Prod.fst one).symm ne

theorem verifySound (sha : Bytes → Bytes) (keyLength : Nat) (m : KeyValueMap) (queryKeys : List Bytes) (proof : Proof)
    (size : ∀ data, (sha data).length = 32) (sized : SizedMap keyLength 32 m)
    (free : CollisionFree sha (hashedBy sha [mapTree keyLength m] ++ verifyStrings sha proof))
    (separate : SeparateQueries keyLength proof)
    (accepted : verify sha queryKeys proof (referenceRoot sha (8 * keyLength) 0 m.entries) keyLength = .ok true) :
    ∀ (i : Nat) key query, queryKeys[i]? = some key → proof.queries[i]? = some query → RightAnswer m key query := by
  intro i key query isKey isQuery
  have keys : ∀ e ∈ m.entries, e.1.length = keyLength := fun e member => (sized e member).1
  have apart := apartOf (keySeparated keyLength) keys (mapDistinct m)
  have size' : ∀ data, (sha data).length = hashSize sha := fun data => (size data).trans (size []).symm
  unfold verify at accepted
  split at accepted
  · cases accepted
  obtain ⟨valid,checked,accepted⟩ := bindOk accepted
  cases valid with
  | false => cases accepted
  | true =>
    obtain ⟨filtered,kept,accepted⟩ := bindOk accepted
    obtain ⟨root,calculated,accepted⟩ := bindOk accepted
    have same : referenceRoot sha (8 * keyLength) 0 m.entries = root := by
      injection accepted with same
      simpa using same
    rw [referenceRootTree apart] at same
    subst same
    have filter := filterProofsOk kept
    have strings : verifyStrings sha proof =
        leafStrings filtered ++ rootStrings sha (levels filtered) proof.siblingHashes (sortQueries filtered) := by
      simp only [verifyStrings,kept]
    rw [strings] at free
    have known : ∀ x ∈ (mapTree keyLength m).subtrees, preimageBytes (x.preimage (digest sha)) ∈
        hashedBy sha [mapTree keyLength m] ++
          (leafStrings filtered ++ rootStrings sha (levels filtered) proof.siblingHashes (sortQueries filtered)) :=
      fun x inside => mem_append_left _ (hashedKnown (.inr ⟨_,mem_singleton.mpr rfl,inside⟩))
    have sizes : ∀ r ∈ sortQueries filtered, r.hash.length = hashSize sha := by
      intro r member
      obtain ⟨q,_,rfl,_⟩ := filter.kept r ((sortQueriesPerm filtered).mem_iff.mp member)
      simp only [queryProofOf,newQueryProof]
      split
      · exact size' _
      · rfl
    have matching := rootMatches free size' known (filteredQueue separate filter) sizes
      (fun data member => mem_append_right _ (mem_append_right _ member)) calculated
    have member := mem_of_getElem? isQuery
    obtain ⟨q',folded,path,value,leaf⟩ : ∃ q', queryProofOf sha q' ∈ filtered ∧ q'.Agree query := by
      rcases filter.stands query member with none | ⟨f,inside,path⟩
      · cases none
      obtain ⟨q',listed,rfl,_⟩ := filter.kept f inside
      exact ⟨q',inside,(separate.apart q' listed query member).resolve_right (fun differ => differ.2 path)⟩
    have isMatch := matching _ ((sortQueriesPerm filtered).mem_iff.mpr folded)
    rw [show (queryProofOf sha q').path = query.path from path] at isMatch
    have pair : (key, query) ∈ queryKeys.zip proof.queries := mem_of_getElem? (getElem?_zip_eq_some.mpr ⟨isKey,isQuery⟩)
    have along : SparseTree.OnPath keyBit 0 query.path key := by
      rw [← (checkQueriesOk checked _ pair).2]
      exact onPathTake key _ 0
    refine answerRight keys along ?_
    by_cases empty : query.value = []
    · rw [if_pos empty]
      have hash : (queryProofOf sha q').hash = emptyHash sha := by simp [queryProofOf,newQueryProof,value,empty]
      rw [hash] at isMatch
      exact matchesEmpty free (by simp [hashedBy]) known isMatch
    · rw [if_neg empty]
      have own : q'.key = query.key := leaf.resolve_left (value ▸ empty)
      have hash : (queryProofOf sha q').hash = leafHash sha query.key query.value := by
        simp [queryProofOf,newQueryProof,empty,value,own]
      rw [hash] at isMatch
      refine matchesLeaf free ?_ known (fun e inside => ?_) isMatch
      · refine mem_append_right _ (mem_append_left _ (mem_map.mpr ⟨_,mem_filter.mpr ⟨folded,?_⟩,by rw [← own,← value]; rfl⟩))
        simpa [queryProofOf,newQueryProof,value] using empty
      · rw [separate.lengths query member empty]
        exact keys e ((mapTreeEntries keys).mem_iff.mp inside)

def sampleMap (entries : List KeyValue) : KeyValueMap := writeAll OrderedMap.empty entries

def soundMap : KeyValueMap := sampleMap [([0], sampleValue 1),([64], sampleValue 2),([128], sampleValue 3)]

def soundProof : Proof :=
  ⟨[leafHash sampleSha [64] (sampleValue 2)],[⟨[0],sampleValue 1,[3]⟩,⟨[128],sampleValue 3,[1]⟩]⟩

theorem verifySoundSample : RightAnswer soundMap [0] ⟨[0], sampleValue 1, [3]⟩ ∧
    RightAnswer soundMap [192] ⟨[128], sampleValue 3, [1]⟩ := by
  have sound := verifySound sampleSha 1 soundMap [[0],[192]] soundProof sampleShaLength (by unfold SizedMap; decide +kernel)
    (by decide +kernel) ⟨by decide +kernel,by decide +kernel⟩ (by decide +kernel)
  exact ⟨sound 0 _ _ rfl rfl,sound 1 _ _ rfl rfl⟩

def hidingMap : KeyValueMap := sampleMap [([0], sampleValue 1)]

def hidingProof : Proof := ⟨[],[⟨[0],sampleValue 1,[]⟩,⟨[1],sampleValue 2,[]⟩]⟩

theorem verifyHidesQuery : verify sampleSha [[0], [1]] hidingProof (referenceRoot sampleSha 8 0 hidingMap.entries) 1 = .ok true ∧
    CollisionFree sampleSha (hashedBy sampleSha [mapTree 1 hidingMap] ++ verifyStrings sampleSha hidingProof) ∧
    SizedMap 1 32 hidingMap ∧ hidingProof.queries[1]? = some ⟨[1], sampleValue 2, []⟩ ∧ hidingMap.get [1] = none ∧
    ¬RightAnswer hidingMap [1] ⟨[1], sampleValue 2, []⟩ := by
  refine ⟨by decide +kernel,by decide +kernel,by unfold SizedMap; decide +kernel,rfl,by decide +kernel,fun right => ?_⟩
  have stated := right.1 rfl
  cases stated

end LiskEngine.Smt
