import Mathlib.Algebra.Order.BigOperators.Group.List
import LiskEngine.SmtSound

/-! Verification of a hostile proof. Past the checks every access is inside its list, as
long as a query's key has all the bits of the query's path. -/
namespace LiskEngine.Smt
open List QueryProof Except

def Returns {α : Type} (result : Except SmtError α) : Prop := result ≠ .error .runtimePanic

theorem returnsOk {α : Type} {res} {a : α} (ok : res = .ok a) : Returns res := by
  rw [ok]
  exact fun fault => nomatch fault

theorem returnsBind {α β : Type} {first} {next : α → Except SmtError β} (returns : Returns first)
    (rest : ∀ a, first = .ok a → Returns (next a)) : Returns (first >>= next) := by
  cases first with
  | error e => exact fun fault => returns (congrArg error (error.inj fault))
  | ok a => exact rest a rfl

variable {sha : Bytes → Bytes}

theorem firstBit {q : QueryProof} (pos : q.height ≠ 0) : ∃ bit, index q.binaryBitmap 0 = .ok bit :=
  ⟨_,indexOk (getElem?_eq_getElem (pos_of_ne_zero pos))⟩

theorem takeSiblingReturns {q : QueryProof} (pos : q.height ≠ 0) (sibs : List Bytes) : Returns (takeSibling sha sibs q) := by
  obtain ⟨bit,first⟩ := firstBit pos
  refine returnsBind (returnsOk first) (fun bit _ => ?_)
  cases bit with
  | false => exact returnsOk rfl
  | true =>
    cases sibs with
    | nil => exact fun fault => nomatch fault
    | cons sib rest => exact returnsOk rfl

theorem mergeSiblingReturns {q s : QueryProof} (positiveQ : q.height ≠ 0) (positiveS : s.height ≠ 0) :
    Returns (mergeSibling sha q s) := by
  obtain ⟨bit,first⟩ := firstBit positiveQ
  obtain ⟨bit',first'⟩ := firstBit positiveS
  refine returnsBind (returnsOk first) (fun bit _ => ?_)
  split
  · exact fun fault => nomatch fault
  refine returnsBind (returnsOk first') (fun bit' _ => ?_)
  split
  · exact fun fault => nomatch fault
  split
  · exact fun fault => nomatch fault
  · exact returnsOk rfl

structure Ordered (queries : List QueryProof) : Prop where
  sorted : Sorted queries
  valid : ∀ q ∈ queries, q.Valid

theorem Ordered.sublist {qs qs'} (ordered : Ordered qs) (sub : qs'.Sublist qs) : Ordered qs' :=
  ⟨ordered.sorted.sublist sub,fun q mem => ordered.valid q (sub.subset mem)⟩

theorem findSiblingReturns {q} {rest : List QueryProof} (ordered : Ordered (q::rest)) (pos : q.height ≠ 0)
    (sibs : List Bytes) : Returns (findSibling sha sibs q rest) := by
  cases rest with
  | nil => exact returnsBind (takeSiblingReturns pos sibs) (fun _ _ => returnsOk rfl)
  | cons s rest =>
    have validQ := ordered.valid q (by simp)
    have validS := ordered.valid s (by simp)
    obtain ⟨p,b,ends,_⟩ := pathEnd validQ pos
    have asked := isSiblingOk validQ validS pos ends
    refine returnsBind (returnsOk asked) (fun merged answer => ?_)
    rw [asked] at answer
    split
    · rename_i isSibling
      have path : s.path = p ++ [!b] := by
        have sibling := ok.inj answer
        rw [isSibling] at sibling
        exact of_decide_eq_true sibling
      have height : s.height ≠ 0 := by
        rw [← pathLength validS,path]
        simp
      exact returnsBind (mergeSiblingReturns pos height) (fun _ _ => returnsOk rfl)
    · exact returnsBind (takeSiblingReturns pos sibs) (fun _ _ => returnsOk rfl)

theorem findSiblingRest {q rest rest' sib sibs sibs'}
    (ok : findSibling sha sibs q rest = .ok (sib,sibs',rest')) : rest'.Sublist rest := by
  cases rest with
  | nil =>
    obtain ⟨_,_,ok⟩ := bindOk ok
    cases ok
    exact List.Sublist.refl _
  | cons s rest =>
    obtain ⟨merged,_,ok⟩ := bindOk ok
    split at ok
    · obtain ⟨_,_,ok⟩ := bindOk ok
      cases ok
      exact sublist_cons_self s _
    · obtain ⟨_,_,ok⟩ := bindOk ok
      cases ok
      exact List.Sublist.refl _

theorem levelsSublist {qs qs'} (sub : qs'.Sublist qs) : levels qs' ≤ levels qs :=
  (sub.map _).sum_le_sum (fun _ _ => Nat.zero_le _)

theorem insertOrdered {query qs} (ordered : Ordered qs) (valid : query.Valid) :
    ∃ qs', insertAndFilterQueries query qs = .ok qs' ∧ Ordered qs' ∧ levels qs' ≤ levels (query::qs) := by
  obtain ⟨xs,ys,rfl,sorted,inserted⟩ := insertQuery ordered.sorted valid ordered.valid
  refine ⟨_,inserted,?_⟩
  have perm : (xs ++ query::ys).Perm (query::(xs ++ ys)) := perm_middle
  split
  · refine ⟨ordered,?_⟩
    exact Nat.le_add_left _ _
  · refine ⟨⟨sorted,fun q mem => ?_⟩,(levelsPerm perm).le⟩
    rcases mem_cons.mp (perm.mem_iff.mp mem) with rfl | old
    · exact valid
    · exact ordered.valid q old

theorem calculateStepReturns {q} {rest : List QueryProof} (ordered : Ordered (q::rest)) (pos : q.height ≠ 0)
    (sibs : List Bytes) : Returns (calculateStep sha sibs q rest) ∧
      ∀ data sibs' qs, calculateStep sha sibs q rest = .ok (data,sibs',qs) → Ordered qs ∧ levels qs < levels (q::rest) := by
  have validQ := ordered.valid q (by simp)
  obtain ⟨p,b,ends,_,_,last⟩ := pathEnd validQ pos
  have goesUp : ∀ hash rest', rest'.Sublist rest → ∃ qs, insertAndFilterQueries (raise q hash) rest' = .ok qs ∧
      Ordered qs ∧ levels qs < levels (q::rest) := by
    intro hash rest' sub
    obtain ⟨qs,inserted,ordered',levels'⟩ := insertOrdered
      (ordered.sublist (sub.trans (sublist_cons_self q rest))) (raisePath validQ ends hash).2
    refine ⟨qs,inserted,ordered',levels'.trans_lt ?_⟩
    have fewer := levelsSublist sub
    rw [levelsCons,levelsCons,raiseHeight]
    omega
  refine ⟨?_,fun data sibs' qs ok => ?_⟩
  · refine returnsBind (findSiblingReturns ordered pos sibs) ?_
    rintro ⟨sib,siblings,rest'⟩ hit
    dsimp only
    split
    · exact fun fault => nomatch fault
    obtain ⟨qs,inserted,_⟩ := goesUp (sha (branchData b q.hash sib)) rest' (findSiblingRest hit)
    refine returnsBind (returnsOk last) (fun dir direction => ?_)
    cases last.symm.trans direction
    exact returnsBind (returnsOk inserted) (fun _ _ => returnsOk rfl)
  · obtain ⟨⟨sib,siblings,rest'⟩,hit,ok⟩ := bindOk ok
    dsimp only at ok
    split at ok
    · cases ok
    obtain ⟨dir,_,ok⟩ := bindOk ok
    obtain ⟨qs',insertion,ok⟩ := bindOk ok
    cases ok
    obtain ⟨_,inserted,after⟩ := goesUp (sha (branchData dir q.hash sib)) rest' (findSiblingRest hit)
    cases inserted.symm.trans insertion
    exact after

theorem calculateRootReturns {fuel} {sibs : List Bytes} {qs} (ordered : Ordered qs)
    (enough : levels qs ≤ fuel) : Returns (calculateRootLoop sha fuel sibs qs) := by
  induction fuel generalizing sibs qs with
  | zero =>
    cases qs with
    | nil => exact fun fault => nomatch fault
    | cons q rest =>
      rw [levelsCons] at enough
      omega
  | succ fuel ih =>
    cases qs with
    | nil => exact fun fault => nomatch fault
    | cons q rest =>
      rw [calculateRootLoop]
      split
      · exact returnsOk rfl
      rename_i pos
      have stepping := @calculateStepReturns sha q rest ordered pos sibs
      refine returnsBind stepping.1 ?_
      rintro ⟨data,siblings,qs⟩ step
      obtain ⟨ordered',fewer⟩ := stepping.2 data siblings qs step
      exact ih ordered' (by omega)

theorem checkQueriesReturns (len : Nat) (seen : List Query) (pairs : List (Bytes × Query)) :
    Returns (checkQueries len seen pairs) := by
  induction pairs generalizing seen with
  | nil => exact returnsOk rfl
  | cons pair rest ih =>
    rw [checkQueries]
    split
    · exact returnsOk rfl
    split
    · simp [Returns]
    split
    · exact returnsOk rfl
    split
    · exact ih _
    split
    · exact returnsOk rfl
    · exact ih _

theorem queryProofValid (q : Query) : (queryProofOf sha q).Valid ↔ (stripPrefixFalse (toBools q.bitmap)).length ≤ 8*q.key.length := by
  rw [← toBoolsLength]
  exact Iff.rfl

theorem filterProofsReturns (seen : List Bytes) (qs : List Query) :
    Returns (filterProofs sha seen qs) ↔ ∀ q ∈ qs, (queryProofOf sha q).Valid := by
  induction qs generalizing seen with
  | nil => exact ⟨fun _ => by simp,fun _ => returnsOk rfl⟩
  | cons q rest ih =>
    rw [forall_mem_cons]
    by_cases valid : (queryProofOf sha q).Valid
    · have path := binaryPathOk valid
      constructor
      · intro returns
        refine ⟨valid,?_⟩
        rw [filterProofs,path] at returns
        dsimp only [bind,Except.bind] at returns
        split at returns
        · exact (ih _).mp returns
        · refine (ih (fromBools (queryProofOf sha q).path::seen)).mp (fun fault => returns ?_)
          rw [fault]
      · intro all
        refine returnsBind (returnsOk path) (fun path _ => ?_)
        split
        · exact (ih _).mpr all.2
        · exact returnsBind ((ih _).mpr all.2) (fun _ _ => returnsOk rfl)
    · refine ⟨fun returns => absurd ?_ returns,fun all => absurd all.1 valid⟩
      have fault : (queryProofOf sha q).binaryPath = .error .runtimePanic := if_pos (Nat.lt_of_not_le valid)
      rw [filterProofs,fault]
      rfl

theorem filteredOrdered {qs filtered} (kept : Filtered sha [] qs filtered) : Ordered (sortQueries filtered) where
  sorted := sortQueriesSorted filtered
  valid q member := by
    obtain ⟨q',inside,rfl,_⟩ := kept.kept q ((sortQueriesPerm filtered).mem_iff.mp member)
    exact kept.valid q' inside

theorem verifyReturnsIff (sha : Bytes → Bytes) (queryKeys : List Bytes) (proof : Proof) (root : Bytes) (keyLength : Nat) :
    verify sha queryKeys proof root keyLength ≠ .error .runtimePanic ↔
      (queryKeys.length = proof.queries.length → checkQueries keyLength [] (queryKeys.zip proof.queries) = .ok true →
        ∀ query ∈ proof.queries, (stripPrefixFalse (toBools query.bitmap)).length ≤ 8 * query.key.length) := by
  have valid := @filterProofsReturns sha [] proof.queries
  simp only [queryProofValid] at valid
  rw [← valid,verify]
  by_cases lengths : queryKeys.length = proof.queries.length
  · rw [if_neg (not_not_intro lengths)]
    constructor
    · intro returns _ checked fault
      refine returns ?_
      rw [checked]
      dsimp only [bind,Except.bind]
      rw [if_pos rfl,fault]
    · intro filtering
      refine returnsBind (checkQueriesReturns keyLength [] _) (fun passed checked => ?_)
      cases passed with
      | false => exact returnsOk rfl
      | true =>
        refine returnsBind (filtering lengths checked) (fun filtered kept => ?_)
        have ordered := filteredOrdered (filterProofsOk kept)
        exact returnsBind (calculateRootReturns ordered (levelsPerm (sortQueriesPerm filtered)).le) (fun _ _ => returnsOk rfl)
  · rw [if_pos lengths]
    exact ⟨fun _ same => absurd same lengths,fun _ => returnsOk rfl⟩

def longBitmap : Proof := ⟨[],[⟨[0],[],[1,0]⟩]⟩

theorem longBitmapFaults : verify sampleSha [[0]] longBitmap [] 1 = .error .runtimePanic := by decide +kernel

end LiskEngine.Smt
