import LiskEngine.StateCommit

/-! Runs of commits and reverts of the application state. As long as no commit deletes
a stored key and no revert takes back an added one, every returned root is the reference
root of the state, and reverts lead back through the earlier states. -/
namespace LiskEngine.Framework
open Smt List OrderedMap ABIHandler Diffdb
open Diffdb (Write CacheValue Diff View Operation applyWrites commitEntries revertDiff perform ideal Shows)
open Codec (Normalizer)

structure AppState where
  state : OrderedMap Bytes Bytes
  height : Nat

def AppState.initial : AppState := ⟨OrderedMap.empty,0⟩

def advance : AppState × List AppState → Step → AppState × List AppState
  | (current, history), .commit _ height _ operations _ =>
    (⟨operations.foldl ideal current.state,height⟩, current :: history)
  | (_, previous :: history), .revert _ _ _ => (previous, history)
  | (current, []), .revert _ _ _ => (current, [])

def writtenKey (step : View × Operation) : Option Bytes :=
  match step.2 with
  | .set key _ => some (step.1.getKey key)
  | .del key => some (step.1.getKey key)
  | _ => none

section
variable (sha : Bytes → Bytes) (text : Normalizer)

structure CommitFine (current : AppState) (history : List AppState) (height : Nat) (expected : Bytes)
    (operations : List (View × Operation)) (order : List (Bytes × CacheValue Bytes)) : Prop where
  keys : ∀ step ∈ operations, ∀ key, writtenKey step = some key → StateKey key
  kept : ∀ key, current.state.get key ≠ none → (operations.foldl ideal current.state).get key ≠ none
  above : history ≠ [] → height = current.height + 1
  small : height < 4294967296
  expected : expected = [] ∨ expected = stateRoot sha (operations.foldl ideal current.state)
  ordered : order.Perm (operations.foldl perform (Diffdb.Database.new current.state)).cache.entries
  fits : ∀ data, (commitEntries order).2.encode text = some data → data.length < 9223372036854775808

structure RevertFine (current previous : AppState) (height : Nat) (expected : Bytes) : Prop where
  last : height = current.height
  above : current.height = previous.height + 1
  kept : ∀ key, current.state.get key ≠ none → previous.state.get key ≠ none
  expected : expected = [] ∨ expected = stateRoot sha previous.state

def FineStep : AppState × List AppState → Step → Prop
  | (current, history), .commit _ height expected operations order =>
    CommitFine sha text current history height expected operations order
  | (current, previous :: _), .revert _ height expected => RevertFine sha current previous height expected
  | (_, []), .revert _ _ _ => False

def FineRun : AppState × List AppState → List Step → Prop
  | _, [] => True
  | at', step :: rest => FineStep sha text at' step ∧ FineRun (advance at' step) rest

end

def statesAlong : AppState × List AppState → List Step → List (OrderedMap Bytes Bytes)
  | at', [] => [at'.1.state]
  | at', step :: rest => at'.1.state :: statesAlong (advance at' step) rest

variable {text : Normalizer}

def Undoable (text : Normalizer) (diffs : OrderedMap Nat Bytes) : AppState → List AppState → Prop
  | _, [] => True
  | current, previous :: rest =>
    (∃ data diff, diffs.get current.height = some data ∧ Diff.decode text data = .ok diff ∧
      ((revertDiff diff).map Diffdb.Write.key).Nodup ∧ applyWrites current.state (revertDiff diff) = previous.state ∧
      ∀ key ∈ diff.added, current.state.get key ≠ none) ∧
    (rest ≠ [] → previous.height < current.height) ∧ Undoable text diffs previous rest

theorem undoableSet (undo : Undoable text diffs current history) (below : history ≠ [] → current.height < height) :
    Undoable text (diffs.set height data) current history := by
  induction history generalizing current with
  | nil => trivial
  | cons prev rest ih =>
    obtain ⟨⟨stored,diff,hit,more⟩,lower,earlier⟩ := undo
    have under := below (by simp)
    refine ⟨⟨stored,diff,?_,more⟩,lower,ih earlier (fun deeper => lt_trans (lower deeper) under)⟩
    rw [getSet,if_neg (ne_of_lt under)]
    exact hit

theorem allSets {writes} (only : ∀ key, Write.del key ∉ writes) : ∃ sets, writes = setWrites sets := by
  induction writes with
  | nil => exact ⟨[],rfl⟩
  | cons w rest ih =>
    obtain ⟨sets,rfl⟩ := ih (fun key mem => only key (.tail _ mem))
    cases w with
    | set key value => exact ⟨(key,value)::sets,rfl⟩
    | del key => exact absurd (.head _) (only key)

theorem setWritesKeys (sets : List (Bytes × Bytes)) : (setWrites sets).map Diffdb.Write.key = sets.map Prod.fst := by
  rw [setWrites,map_map]
  rfl

structure Between (sha : Bytes → Bytes) (text : Normalizer) (a : ABIHandler) (root : Bytes) (current : AppState)
    (history : List AppState) : Prop where
  idle : a.executionContext = none
  state : a.stateDB.state = current.state
  root : root = stateRoot sha current.state
  keeps : Keeps sha 8 (OrderedMap.get a.stateDB.tree) (stateTree sha current.state)
  height : (a.stateDB.current sha).1 = current.height
  small : current.height < 4294967296
  undo : Undoable text a.stateDB.diffs current history

theorem expectedMatches (fine : expected = [] ∨ expected = root) : matchesExpected root expected = .ok () := by
  unfold matchesExpected
  rw [if_neg]
  rintro ⟨found,ne⟩
  rcases fine with rfl | rfl
  · simp at found
  · exact ne rfl

section
variable {current : AppState} {shown : OrderedMap Bytes Bytes} {db : Diffdb.Database Bytes Bytes}
  (shows : Shows current.state shown db) {order : List (Bytes × CacheValue Bytes)} (perm : order.Perm db.cache.entries)
include shows perm

theorem commitSets (kept : ∀ key, current.state.get key ≠ none → shown.get key ≠ none) :
    ∃ sets, (commitEntries order).1 = setWrites sets ∧ (sets.map Prod.fst).Nodup := by
  have only : ∀ key, Write.del key ∉ (commitEntries order).1 := by
    intro key mem
    rw [commitEntriesWrites] at mem
    obtain ⟨⟨k,c⟩,inside,made⟩ := mem_filterMap.mp mem
    have same : key = k := commitWriteKey made
    subst same
    have cached := (Diffdb.Database.memOrderIff perm key c).mp inside
    have stored := shows.coherent.init key c cached
    have hidden := shows.view key
    rw [shows.store] at stored
    simp only [Diffdb.Database.view,cached] at hidden
    unfold commitWrite at made
    cases init : c.init with
    | none => simp [init] at made
    | some value =>
      have gone : c.deleted = true := by
        by_contra alive
        simp only [init,if_neg alive] at made
        split at made <;> simp at made
      refine kept key ?_ ?_
      · rw [← stored,init]
        simp
      · rw [← hidden,if_pos gone]
  obtain ⟨sets,same⟩ := allSets only
  refine ⟨sets,same,?_⟩
  rw [← setWritesKeys,← same,commitEntriesWrites]
  exact filterMapKeysNodup (fun _ _ made => commitWriteKey made) (Diffdb.Database.orderKeysNodup perm)

theorem commitUndo : ((revertDiff (commitEntries order).2).map Diffdb.Write.key).Nodup ∧
    ∀ key ∈ (commitEntries order).2.added, shown.get key ≠ none := by
  have undone := commitEntriesUndo order
  refine ⟨?_,fun key mem => ?_⟩
  · rw [(undone.map Diffdb.Write.key).nodup_iff]
    exact filterMapKeysNodup (fun _ _ made => undoWriteKey made) (Diffdb.Database.orderKeysNodup perm)
  have listed : Write.del key ∈ revertDiff (commitEntries order).2 := by
    unfold revertDiff
    simp [mem]
  obtain ⟨⟨k,c⟩,inside,made⟩ := mem_filterMap.mp (undone.mem_iff.mp listed)
  have same : key = k := undoWriteKey made
  subst same
  have cached := (Diffdb.Database.memOrderIff perm key c).mp inside
  have fresh : c.init = none := by
    unfold undoWrite at made
    cases init : c.init with
    | none => rfl
    | some value =>
      simp only [init] at made
      split at made <;> simp at made
  rw [← shows.view key]
  simp [Diffdb.Database.view,cached,shows.coherent.kept key c cached fresh]

end

section
variable {states : List (OrderedMap Bytes Bytes)} (clean : Clean sha states) {a : ABIHandler} {root : Bytes}
  {current : AppState} {history : List AppState} (id : Bytes) {height : Nat} {expected : Bytes}
include clean

theorem commitStep (between : Between sha text a root current history)
    (fine : CommitFine sha text current history height expected operations order) (listed : current.state ∈ states)
    (listed' : operations.foldl ideal current.state ∈ states) :
    ∃ root' a', runStep sha text a root (.commit id height expected operations order) = .ok (root',a') ∧
      Between sha text a' root' ⟨operations.foldl ideal current.state,height⟩ (current::history) := by
  have shows := (newShows current.state).run operations
  obtain ⟨sets,same,nodup⟩ := commitSets shows fine.ordered fine.kept
  have com := shows.committed fine.ordered
  obtain ⟨data,enc⟩ : ∃ data, (commitEntries order).2.encode text = some data := diffEncodes _
  rw [same] at com
  rw [← com] at listed'
  obtain ⟨tree,updated,keeps⟩ := updateTreeSets clean listed listed' nodup between.keeps
  rw [com] at updated keeps
  obtain ⟨idle,state,rfl,_,stored,_,undo⟩ := between
  obtain ⟨distinctUndo,added⟩ := commitUndo shows fine.ordered
  refine ⟨_,⟨⟨operations.foldl ideal current.state,tree,a.stateDB.diffs.set height data,
    some (height,stateRoot sha (operations.foldl ideal current.state))⟩,none⟩,?_,rfl,rfl,rfl,keeps,rfl,fine.small,
    ⟨data,_,by rw [getSet,if_pos rfl],diffDecodes enc (fine.fits data enc),distinctUndo,
      shows.reverted fine.ordered,added⟩,fun deeper => ?_,undoableSet undo (fun deeper => ?_)⟩
  · simp [runStep,initStateMachine,idle,execute,commit,checkState,
      clear,bind,Except.bind,enc,same,updated,expectedMatches fine.expected,state,com]
  · have := fine.above deeper
    simp only
    omega
  · have := fine.above deeper
    omega

theorem revertStep (between : Between sha text a root current (pre::history))
    (fine : RevertFine sha current pre height expected) (listed : current.state ∈ states) (listed' : pre.state ∈ states) :
    ∃ root' a', runStep sha text a root (.revert id height expected) = .ok (root',a') ∧ Between sha text a' root' pre history := by
  obtain ⟨idle,state,rfl,keeps,stored,small,⟨data,diff,hit,dec,nodup,undone,added⟩,lower,undo⟩ := between
  have only : ∀ key, Write.del key ∉ revertDiff diff := by
    intro key mem
    have inside : key ∈ diff.added := by simpa [revertDiff] using mem
    refine fine.kept key (added key inside) ?_
    rw [← undone]
    exact applyWritesTouched mem nodup current.state
  obtain ⟨sets,same⟩ := allSets only
  rw [same,setWritesKeys] at nodup
  rw [same] at undone
  rw [← undone] at listed'
  obtain ⟨tree,updated,keeps'⟩ := updateTreeSets clean listed listed' nodup keeps
  rw [undone] at updated keeps'
  have before : u32 (height+maxUint32) = pre.height := by
    rw [fine.last,fine.above]
    have := fine.above
    unfold u32 maxUint32
    omega
  refine ⟨_,⟨{a.stateDB with state := pre.state, tree := tree, treeState := some (pre.height,stateRoot sha pre.state)},
    none⟩,
    ?_,rfl,rfl,rfl,keeps',rfl,?_,undo⟩
  · simp [runStep,initStateMachine,idle,revert,revertHeight,checkState,
      clear,bind,Except.bind,fine.last,hit,dec,same,updated,expectedMatches fine.expected,state,
      undone,← before]
  · have := fine.above
    omega

end

def ValidState (state : OrderedMap Bytes Bytes) : Prop := ∀ e ∈ state.entries, StateKey e.1

theorem idealValid {ops : List (View × Operation)} {state} (valid : ValidState state)
    (keys : ∀ step ∈ ops, ∀ key, writtenKey step = some key → StateKey key) : ValidState (ops.foldl ideal state) := by
  induction ops generalizing state with
  | nil => exact valid
  | cons step rest ih =>
    refine ih ?_ (fun step mem => keys step (.tail _ mem))
    have here := keys step (.head _)
    rintro ⟨k,v⟩ mem
    have hit := (memIffGet _ k v).mp mem
    have old : state.get k = some v → StateKey k := fun held => valid (k,v) ((memIffGet _ k v).mpr held)
    obtain ⟨view,op⟩ := step
    cases op with
    | set key value =>
      simp only [ideal,getSet] at hit
      split at hit
      · rename_i same
        exact here k (by rw [same]; rfl)
      · exact old hit
    | del key =>
      simp only [ideal,getDel] at hit
      split at hit
      · cases hit
      · exact old hit
    | get key | has key | range start stop limit rev => exact old hit

theorem alongFirst (at' : AppState × List AppState) (steps : List Step) : at'.1.state ∈ statesAlong at' steps := by
  cases steps <;> exact .head _

theorem alongValid {steps current history} (fine : FineRun sha text (current,history) steps) (valid : ValidState current.state)
    (earlier : ∀ prev ∈ history, ValidState prev.state) : ∀ state ∈ statesAlong (current,history) steps, ValidState state := by
  induction steps generalizing current history with
  | nil =>
    intro state mem
    rw [mem_singleton.mp mem]
    exact valid
  | cons step rest ih =>
    obtain ⟨now,later⟩ := fine
    intro state mem
    rcases mem_cons.mp mem with rfl | mem
    · exact valid
    cases step with
    | commit id height expected ops order =>
      refine ih later (idealValid valid now.keys) (fun prev inside => ?_) state mem
      rcases mem_cons.mp inside with rfl | inside
      · exact valid
      · exact earlier prev inside
    | revert id height expected =>
      cases history with
      | nil => exact absurd now (fun impossible => impossible)
      | cons prev history =>
        exact ih later (earlier prev (.head _))
          (fun state inside => earlier state (.tail _ inside)) state mem

theorem stepKeeps (clean : Clean sha states) (between : Between sha text a root current history)
    (fine : FineStep sha text (current,history) step)
    (listed : current.state ∈ states) (listed' : (advance (current,history) step).1.state ∈ states) :
    ∃ root' a', runStep sha text a root step = .ok (root',a') ∧
      Between sha text a' root' (advance (current,history) step).1 (advance (current,history) step).2 := by
  cases step with
  | commit id height expected ops order => exact commitStep clean id between fine listed listed'
  | revert id height expected =>
    cases history with
    | nil => exact absurd fine (fun impossible => impossible)
    | cons prev history => exact revertStep clean id between fine listed listed'

theorem runKeeps (clean : Clean sha states) (between : Between sha text a root current history)
    (fine : FineRun sha text (current,history) steps) (listed : ∀ state ∈ statesAlong (current,history) steps, state ∈ states) :
    ∃ root' a', runSteps sha text a root steps = .ok (root',a') ∧
      Between sha text a' root' (steps.foldl advance (current,history)).1 (steps.foldl advance (current,history)).2 := by
  induction steps generalizing a root current history with
  | nil => exact ⟨root,a,rfl,between⟩
  | cons step rest ih =>
    obtain ⟨now,later⟩ := fine
    have rest' := fun state mem => listed state (.tail _ mem)
    obtain ⟨root',a',ran,between'⟩ := stepKeeps clean between now (listed _ (alongFirst _ _)) (rest' _ (alongFirst _ _))
    obtain ⟨root'',a'',ran',between''⟩ := ih between' later rest'
    refine ⟨root'',a'',?_,between''⟩
    simp only [runSteps,ran,bind,Except.bind]
    exact ran'

theorem startBetween (sha : Bytes → Bytes) (text : Normalizer) :
    Between sha text ⟨StateDB.empty,none⟩ (emptyHash sha) AppState.initial [] := by
  have empty : stateTree sha OrderedMap.empty = .empty := SparseTree.buildNil _ _
  refine ⟨rfl,rfl,rfl,⟨fun ne => absurd empty ne,?_⟩,rfl,by decide,trivial⟩
  rw [show AppState.initial.state = OrderedMap.empty from rfl,empty]
  simp

theorem stateFollowsRun (sha : Bytes → Bytes) (text : Normalizer) (steps : List Step)
    (size : ∀ data, (sha data).length = 32) (fine : FineRun sha text (AppState.initial, []) steps)
    (free : CollisionFree sha (hashedFor sha (statesAlong (AppState.initial, []) steps))) :
    ∃ root a, runSteps sha text ⟨StateDB.empty, none⟩ (emptyHash sha) steps = .ok (root, a) ∧
      root = stateRoot sha (steps.foldl advance (AppState.initial, [])).1.state ∧
      a.stateDB.state = (steps.foldl advance (AppState.initial, [])).1.state ∧
      (a.stateDB.current sha).1 = (steps.foldl advance (AppState.initial, [])).1.height := by
  have valid := alongValid fine (fun e member => by cases member) (fun previous member => by cases member)
  obtain ⟨root,a,ran,between⟩ := runKeeps ⟨size,valid,free⟩ (startBetween sha text) fine (fun state member => member)
  exact ⟨root,a,ran,between.root,between.state,between.height⟩

def plainText : Normalizer := .plain

def sampleKey : Bytes := [0,1,1,1,1,1,1,5]

def commitOf (height : Nat) (expected : Bytes) (state : OrderedMap Bytes Bytes) (operations : List (View × Operation)) : Step :=
  .commit [] height expected operations (operations.foldl perform (Diffdb.Database.new state)).cache.entries

def storeSample (value : Bytes) : List (View × Operation) := [(⟨[0]⟩, .set (sampleKey.drop 1) value)]

def sampleState (value : Bytes) : OrderedMap Bytes Bytes := OrderedMap.empty.set sampleKey value

def sampleRun : List Step :=
  [commitOf 1 [] OrderedMap.empty (storeSample [7]),commitOf 2 [] (sampleState [7]) (storeSample [8]),
    .revert [] 2 (stateRoot sampleSha (sampleState [7]))]

theorem sampleCommitFine (above : history ≠ [] → height = current.height+1)
    (small : height < 4294967296) (kept : ∀ key, current.state.get key ≠ none → key = sampleKey)
    (fits : ((commitEntries ((storeSample value).foldl perform (Diffdb.Database.new current.state)).cache.entries).2.encode plainText).all
      (·.length < 9223372036854775808) = true) :
    FineStep sampleSha plainText (current,history) (commitOf height [] current.state (storeSample value)) := by
  refine ⟨?_,?_,above,small,Or.inl rfl,List.Perm.refl _,fun data enc => ?_⟩
  · intro step mem key put
    rw [mem_singleton.mp mem] at put
    cases put
    exact ⟨_,rfl,by decide⟩
  · intro key stored
    rw [kept key stored]
    have hit : ((storeSample value).foldl ideal current.state).get sampleKey = some value :=
      (getSet current.state sampleKey sampleKey value).trans (if_pos rfl)
    rw [hit]
    simp
  · rw [enc] at fits
    simpa using fits

theorem storeSampleOnly (only : ∀ key, state.get key ≠ none → key = sampleKey) (value : Bytes) :
    ∀ key, ((storeSample value).foldl ideal state).get key ≠ none → key = sampleKey := by
  intro key stored
  by_contra other
  have untouched : ((storeSample value).foldl ideal state).get key = state.get key :=
    (getSet state sampleKey key value).trans (if_neg other)
  exact other (only key (by rwa [untouched] at stored))

theorem sampleRunFine : FineRun sampleSha plainText (.initial, []) sampleRun := by
  have first := storeSampleOnly (fun key stored => absurd (getEmpty key) stored) [7]
  have second := storeSampleOnly first [8]
  refine ⟨?_,?_,?_,trivial⟩
  · exact sampleCommitFine (by simp) (by decide) (fun key stored => absurd (getEmpty key) stored) (by decide +kernel)
  · exact sampleCommitFine (fun _ => rfl) (by decide) first (by decide +kernel)
  · refine ⟨rfl,rfl,fun key stored => ?_,Or.inr rfl⟩
    rw [second key stored]
    decide

theorem stateFollowsRunSample : ∃ root a,
    runSteps sampleSha plainText ⟨StateDB.empty, none⟩ (emptyHash sampleSha) sampleRun = .ok (root, a) ∧
      root = stateRoot sampleSha (sampleState [7]) ∧ a.stateDB.state = sampleState [7] ∧ (a.stateDB.current sampleSha).1 = 1 :=
  stateFollowsRun sampleSha plainText sampleRun sampleShaLength sampleRunFine (by decide +kernel)

def leftLeaf : Tree := .leaf (treeKey sampleSha sampleKey) (emptyHash sampleSha)

theorem deletionKeepsLeaf : (runSteps sampleSha plainText ⟨StateDB.empty, none⟩ (emptyHash sampleSha)
        [commitOf 1 [] OrderedMap.empty (storeSample [7]),
          commitOf 2 [] (sampleState [7]) [(⟨[0]⟩, .del (sampleKey.drop 1))]]).map (fun r => (r.1, r.2.stateDB.state)) =
      .ok (treeRoot sampleSha leftLeaf, OrderedMap.empty) ∧ treeRoot sampleSha leftLeaf ≠ stateRoot sampleSha OrderedMap.empty ∧
    runSteps sampleSha plainText ⟨StateDB.empty, none⟩ (emptyHash sampleSha)
        [commitOf 1 [] OrderedMap.empty (storeSample [7]), .revert [] 1 (emptyHash sampleSha)] =
      .error (.stateRootMismatch (treeRoot sampleSha leftLeaf) (emptyHash sampleSha)) ∧
    CollisionFree sampleSha (hashedFor sampleSha [OrderedMap.empty, sampleState [7]] ++ hashedBy sampleSha [leftLeaf]) := by
  decide +kernel

theorem alongLast (at' : AppState × List AppState) (steps : List Step) : (steps.foldl advance at').1.state ∈ statesAlong at' steps := by
  induction steps generalizing at' with
  | nil => exact .head _
  | cons step rest ih => exact .tail _ (ih _)

theorem stateRootsAgree {states : List (OrderedMap Bytes Bytes)} (clean : Clean sha states)
    (values : CollisionFree sha (stateValues states)) (text : Normalizer) (steps steps' : List Step)
    (fine : FineRun sha text (.initial, []) steps) (fine' : FineRun sha text (.initial, []) steps')
    (listed : statesAlong (.initial, []) steps ⊆ states) (listed' : statesAlong (.initial, []) steps' ⊆ states) :
    ∃ root a root' a', runSteps sha text ⟨StateDB.empty, none⟩ (emptyHash sha) steps = .ok (root, a) ∧
      runSteps sha text ⟨StateDB.empty, none⟩ (emptyHash sha) steps' = .ok (root', a') ∧
      (root = root' ↔ a.stateDB.state = a'.stateDB.state) := by
  obtain ⟨root,a,ran,between⟩ := runKeeps clean (startBetween sha text) fine listed
  obtain ⟨root',a',ran',between'⟩ := runKeeps clean (startBetween sha text) fine' listed'
  refine ⟨root,a,root',a',ran,ran',?_⟩
  rw [between.root,between'.root,between.state,between'.state]
  have last := listed (alongLast _ steps)
  have last' := listed' (alongLast _ steps')
  refine ⟨fun same => extGet fun k => Option.ext fun v => ?_,congrArg _⟩
  rw [← memIffGet,← memIffGet]
  exact ⟨clean.entryOf values last last' same _,clean.entryOf values last' last same.symm _⟩

theorem stateRootsAgreeSample : ∃ root a root' a',
    runSteps sampleSha plainText ⟨StateDB.empty, none⟩ (emptyHash sampleSha) sampleRun = .ok (root, a) ∧
    runSteps sampleSha plainText ⟨StateDB.empty, none⟩ (emptyHash sampleSha)
      [commitOf 1 [] OrderedMap.empty (storeSample [8])] = .ok (root', a') ∧
      (root = root' ↔ a.stateDB.state = a'.stateDB.state) := by
  have fine' : FineRun sampleSha plainText (.initial, []) [commitOf 1 [] OrderedMap.empty (storeSample [8])] :=
    ⟨sampleCommitFine (by simp) (by decide) (fun key stored => absurd (getEmpty key) stored) (by decide +kernel),trivial⟩
  have valid := alongValid sampleRunFine (fun e mem => by cases mem) (fun prev mem => by cases mem)
  exact stateRootsAgree ⟨sampleShaLength,valid,by decide +kernel⟩ (by decide +kernel) plainText _ _ sampleRunFine fine'
    (fun _ => id) (by decide +kernel)

end LiskEngine.Framework
