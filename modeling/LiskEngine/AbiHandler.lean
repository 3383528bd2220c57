import LiskEngine.DiffdbViews
import LiskEngine.SmtRoot

/-! The commit and revert of the application state. The prefixes of the state
database are separate maps; a batch is written as a whole. The keys of the state
map keep their database prefix, as the tree keys are cut from them. -/
namespace LiskEngine.Framework
open Smt (KeyValue KeyValueMap SmtError Trie emptyHash newTrie)
open Diffdb (Write CacheValue Diff View Operation applyWrites commitEntries revertDiff perform)
open Codec (CodecError Normalizer)

inductive HandlerError where
  | alreadyInitialized
  | invalidContextID (id : Bytes)
  | diffNotFound (height : Nat)
  | stateRootMismatch (root expected : Bytes)
  | codec (error : CodecError)
  | smt (error : SmtError)
  | sliceOutOfRange
  | nilContext
  | invalidHeight (current engine : Nat)
  | rootConflict (height : Nat) (current engine : Bytes)
  deriving DecidableEq, Repr

def dbPrefixSize : Nat := 1
def moduleKeySize : Nat := 6
def stateTreeKeySize : Nat := 38

structure StateDB where
  state : OrderedMap Bytes Bytes
  tree : KeyValueMap
  diffs : OrderedMap Nat Bytes
  treeState : Option (Nat × Bytes)
  deriving DecidableEq

def StateDB.empty : StateDB := ⟨OrderedMap.empty,OrderedMap.empty,OrderedMap.empty,none⟩

/-- The cache `diffStore` lies over the state database as it is at the time. -/
structure ExecutionContext where
  id : Bytes
  height : Nat
  diffStore : Diffdb.CacheDB Bytes Bytes
  deriving DecidableEq

structure ABIHandler where
  stateDB : StateDB
  executionContext : Option ExecutionContext
  deriving DecidableEq

structure CommitRequest where
  contextID : Bytes
  stateRoot : Bytes
  expectedStateRoot : Bytes
  dryRun : Bool

structure RevertRequest where
  contextID : Bytes
  stateRoot : Bytes
  expectedStateRoot : Bytes

/-- Reads go to the database and do not see the writes pending in the batch. -/
def batchdb : Smt.DB (KeyValueMap × List (Write Bytes Bytes)) where
  get s key := s.1.get key
  set s key value := (s.1, s.2 ++ [.set key value])
  del s key := (s.1, s.2 ++ [.del key])

section
variable (sha : Bytes → Bytes)

def getTreeKey (keyBytes : Bytes) : Option Bytes :=
  if keyBytes.length < dbPrefixSize + moduleKeySize then none
  else some ((keyBytes.drop dbPrefixSize).take moduleKeySize ++ sha (keyBytes.drop (dbPrefixSize + moduleKeySize)))

def treeWrite : Write Bytes Bytes → Option KeyValue
  | .set key value => (getTreeKey sha key).map (fun treeKey => (treeKey, sha value))
  | .del key => (getTreeKey sha key).map (fun treeKey => (treeKey, emptyHash sha))

def treeWrites : List (Write Bytes Bytes) → Option (List KeyValue)
  | [] => some []
  | w :: rest => do
    let first ← treeWrite sha w
    let others ← treeWrites rest
    some (first :: others)

def updateTree (tree : KeyValueMap) (stateRoot : Bytes) (writes : List (Write Bytes Bytes)) :
    Except HandlerError (Bytes × KeyValueMap) :=
  match treeWrites sha writes with
  | none => .error .sliceOutOfRange
  | some keyValues =>
    match (newTrie sha stateRoot stateTreeKeySize).update sha batchdb (tree, [])
        (keyValues.map Prod.fst) (keyValues.map Prod.snd) with
    | .error e => .error (.smt e)
    | .ok (s, trie) => .ok (trie.root, applyWrites s.1 s.2)

def matchesExpected (root expected : Bytes) : Except HandlerError Unit :=
  if 0 < expected.length ∧ root ≠ expected then .error (.stateRootMismatch root expected) else .ok ()

namespace ABIHandler

def checkState (a : ABIHandler) (id : Bytes) : Except HandlerError ExecutionContext :=
  match a.executionContext with
  | none => .error (.invalidContextID id)
  | some context => if context.id = id then .ok context else .error (.invalidContextID id)

/-- The identifier is the hash of the header's encoding. -/
def initStateMachine (a : ABIHandler) (id : Bytes) (height : Nat) : Except HandlerError ABIHandler :=
  match a.executionContext with
  | some _ => .error .alreadyInitialized
  | none => .ok {a with executionContext := some ⟨id,height,OrderedMap.empty⟩}

def overlay (a : ABIHandler) (context : ExecutionContext) : Diffdb.Database Bytes Bytes := ⟨a.stateDB.state,context.diffStore⟩

def execute (a : ABIHandler) (operations : List (View × Operation)) : ABIHandler :=
  {a with executionContext := a.executionContext.map (fun context =>
    {context with diffStore := (operations.foldl perform (a.overlay context)).cache})}

def clear (a : ABIHandler) : ABIHandler := {a with executionContext := none}

variable (text : Normalizer)

/-- The cache is visited in `order`. -/
def commit (a : ABIHandler) (req : CommitRequest) (order : List (Bytes × CacheValue Bytes)) :
    Except HandlerError (Bytes × ABIHandler) := do
  let context ← a.checkState req.contextID
  let (writes, diff) := commitEntries order
  match diff.encode text with
  | none => .error .sliceOutOfRange
  | some encodedDiff =>
    let (root, tree) ← updateTree sha a.stateDB.tree req.stateRoot writes
    matchesExpected root req.expectedStateRoot
    if req.dryRun then .ok (root, a)
    else .ok (root, {a with stateDB := ⟨applyWrites a.stateDB.state writes,tree,
      a.stateDB.diffs.set context.height encodedDiff,some (context.height, root)⟩})

/-- The stored height comes from the context, whatever height is reverted. -/
def revertHeight (a : ABIHandler) (context : ExecutionContext) (height : Nat) (stateRoot expectedStateRoot : Bytes) :
    Except HandlerError (Bytes × ABIHandler) :=
  match a.stateDB.diffs.get height with
  | none => .error (.diffNotFound height)
  | some encodedDiff =>
    match Diff.decode text encodedDiff with
    | .error e => .error (.codec e)
    | .ok diff => do
      let writes := revertDiff diff
      let (root, tree) ← updateTree sha a.stateDB.tree stateRoot writes
      matchesExpected root expectedStateRoot
      .ok (root, {a with stateDB := {a.stateDB with
        state := applyWrites a.stateDB.state writes, tree := tree,
        treeState := some (u32 (context.height + maxUint32), root)}})

def revert (a : ABIHandler) (req : RevertRequest) : Except HandlerError (Bytes × ABIHandler) := do
  let context ← a.checkState req.contextID
  revertHeight sha text a context context.height req.stateRoot req.expectedStateRoot

end ABIHandler

def StateDB.current (db : StateDB) : Nat × Bytes := db.treeState.getD (0, emptyHash sha)

end

inductive Step where
  | commit (id : Bytes) (height : Nat) (expected : Bytes) (operations : List (View × Operation))
      (order : List (Bytes × CacheValue Bytes))
  | revert (id : Bytes) (height : Nat) (expected : Bytes)

variable (sha : Bytes → Bytes) (text : Normalizer)

def runStep (a : ABIHandler) (root : Bytes) : Step → Except HandlerError (Bytes × ABIHandler)
  | .commit id height expected operations order => do
    let a ← a.initStateMachine id height
    let (root, a) ← (a.execute operations).commit sha text ⟨id,root,expected,false⟩ order
    .ok (root, a.clear)
  | .revert id height expected => do
    let a ← a.initStateMachine id height
    let (root, a) ← a.revert sha text ⟨id,root,expected⟩
    .ok (root, a.clear)

def runSteps (a : ABIHandler) (root : Bytes) : List Step → Except HandlerError (Bytes × ABIHandler)
  | [] => .ok (root, a)
  | step :: rest => do
    let (root, a) ← runStep sha text a root step
    runSteps a root rest

end LiskEngine.Framework
