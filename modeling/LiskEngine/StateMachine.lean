import LiskEngine.Blockchain
import LiskEngine.DiffdbHandles

/-! Execution of one transaction. A hook is any function of its context. A command makes calls one
after the other and may choose each by the answers so far: stores, reads and writes through
them, snapshots of them, and events. -/
namespace LiskEngine.StateMachine
open List
open Blockchain (Event Transaction)
open Codec Diffdb

inductive ExecError where
  | custom (message : String)
  | commandMissing (module command : String)
  | snapshotMissing (id : Int)
  | defaultTopicUnset
  | moduleNotAlphanumeric (module : String)
  | nameNotAlphanumeric (name : String)
  | dataTooLong
  | noTopics
  | tooManyTopics
  | transaction (id : Bytes) (err : ExecError)
  deriving DecidableEq, Repr

def alphanumeric (s : String) : Bool := s.toList.all Char.isAlphanum

def eventMaxSizeBytes : Nat := 1024
def eventMaxTopicsPerEvent : Nat := 4
def eventNameDefault : String := "commandExecutionResult"

def validateEvent (e : Event) : Except ExecError Unit :=
  if !alphanumeric e.module then .error (.moduleNotAlphanumeric e.module)
  else if !alphanumeric e.name then .error (.nameNotAlphanumeric e.name)
  else if e.data.length > eventMaxSizeBytes then .error .dataTooLong
  else if e.topics.length = 0 then .error .noTopics
  else if e.topics.length > eventMaxTopicsPerEvent then .error .tooManyTopics
  else .ok ()

structure LoggedEvent where
  event : Event
  noRevert : Bool
  deriving DecidableEq, Repr

/-- The index of an event is its position, in 32 bits. -/
structure EventLogger where
  events : List LoggedEvent
  snapshotIndex : Int
  height : Nat
  defaultTopic : Option Bytes
  within : snapshotIndex ≤ events.length
  numbered : events.map (fun e => e.event.index) = (List.range events.length).map u32

namespace EventLogger

def new (height : Nat) : EventLogger := ⟨[],-1,height,none,by decide,rfl⟩

def createEvent (l : EventLogger) (module name : String) (data : Bytes) (topics : List Bytes) : Except ExecError Event := do
  match l.defaultTopic with
  | none => .error .defaultTopicUnset
  | some defaultTopic =>
    let event : Event := ⟨module,name,data,defaultTopic :: topics,l.height,u32 l.events.length⟩
    validateEvent event
    .ok event

theorem createdIndex {l : EventLogger} {module name data topics event}
    (created : l.createEvent module name data topics = .ok event) : event.index = u32 l.events.length := by
  unfold createEvent at created
  split at created
  · cases created
  · obtain ⟨_,_,same⟩ := bindOk created
    rw [← Except.ok.inj same]

def append (l : EventLogger) (event : Event) (noRevert : Bool) (placed : event.index = u32 l.events.length) : EventLogger :=
  {l with
    events := l.events ++ [⟨event,noRevert⟩]
    within := by
      have := l.within
      rw [List.length_append]
      omega
    numbered := by simp [l.numbered,placed,List.range_succ]}

def addWith (l : EventLogger) (noRevert : Bool) (module name : String) (data : Bytes) (topics : List Bytes) :
    Except ExecError EventLogger :=
  match created : l.createEvent module name data topics with
  | .error err => .error err
  | .ok event => .ok (l.append event noRevert (createdIndex created))

/-- Both calls log their event as one that is not reverted. -/
def add (l : EventLogger) := l.addWith true
def addUnrevertible (l : EventLogger) := l.addWith true

def setDefaultTopic (l : EventLogger) (topic : Bytes) : EventLogger := {l with defaultTopic := some topic}

def createSnapshot (l : EventLogger) : EventLogger := {l with snapshotIndex := l.events.length, within := le_rfl}

def keepLoop (start : Nat) : List LoggedEvent → List LoggedEvent → List LoggedEvent
  | [], kept => kept
  | e :: rest, kept =>
    if e.noRevert then keepLoop start rest (kept ++ [{e with event := {e.event with index := u32 (start + kept.length)}}])
    else keepLoop start rest kept

theorem keepLoopAll (start : Nat) (rest kept : List LoggedEvent) :
    keepLoop start rest kept = kept ++ ((rest.filter (·.noRevert)).zipIdx (start+kept.length)).map
      (fun e => {e.1 with event := {e.1.event with index := u32 e.2}}) := by
  induction rest generalizing kept with
  | nil => simp [keepLoop]
  | cons e rest ih =>
    rw [keepLoop]
    split
    · rename_i keeps
      rw [ih,filter_cons_of_pos keeps,zipIdx_cons,map_cons,append_assoc,length_append,length_singleton,Nat.add_assoc]
      rfl
    · rename_i drops
      rw [ih,filter_cons_of_neg drops]

theorem keepLoopNumbered (start : Nat) (rest : List LoggedEvent) : (keepLoop start rest []).map (·.event.index) =
      ((List.range (keepLoop start rest []).length).map (start + ·)).map u32 := by
  rw [keepLoopAll,nil_append,length_map,length_zipIdx,← range'_eq_map_range,← zipIdx_map_snd,map_map,map_map]
  rfl

/-- Events behind the snapshot that may not be reverted move up. -/
def restoreSnapshot (l : EventLogger) : EventLogger :=
  if l.snapshotIndex < 0 then l
  else
    {l with
      events := l.events.take l.snapshotIndex.toNat ++ keepLoop l.snapshotIndex.toNat (l.events.drop l.snapshotIndex.toNat) []
      snapshotIndex := -1
      within := by omega
      numbered := by
        have within := l.within
        have first : (l.events.take l.snapshotIndex.toNat).length = l.snapshotIndex.toNat := by
          rw [List.length_take]
          omega
        rw [List.map_append,keepLoopNumbered,List.map_take,l.numbered,List.length_append,first,List.range_add,
          List.map_append,← List.map_take,List.take_range,Nat.min_eq_left (by omega)]}

end EventLogger

structure Context where
  memory : Memory
  eventLogs : EventLogger
  transaction : Transaction

inductive Call where
  | getStore (storePrefix substorePrefix : Bytes)
  | store (view : Nat) (call : StoreCall)
  | snapshot (view : Nat)
  | restoreSnapshot (view : Nat) (id : Int)
  | add (module name : String) (data : Bytes) (topics : List Bytes)
  | addUnrevertible (module name : String) (data : Bytes) (topics : List Bytes)

inductive Answer where
  | reply (r : Reply)
  | event (err : Option ExecError)

namespace Context

def events (ctx : Context) : List Event := ctx.eventLogs.events.map (·.event)

def reads (ctx : Context) (storePrefix substorePrefix : Bytes) (c : StoreCall) : Option Reply :=
  ctx.memory.reads (storePrefix ++ substorePrefix) c

def logged (ctx : Context) : Except ExecError EventLogger → Answer × Context
  | .error err => (.event (some err), ctx)
  | .ok logs => (.event none, {ctx with eventLogs := logs})

end Context

/-- One call of a command; none where the source panics. -/
def Call.perform (ctx : Context) : Call → Option (Answer × Context)
  | .getStore storePrefix substorePrefix =>
    (ctx.memory.getStore (storePrefix ++ substorePrefix)).map (fun r => (.reply r.1, {ctx with memory := r.2}))
  | .store view c => (ctx.memory.call (view + 1) c).map (fun r => (.reply r.1, {ctx with memory := r.2}))
  | .snapshot view => (ctx.memory.snapshot (view + 1)).map (fun r => (.reply (.snapshot r.1), {ctx with memory := r.2}))
  | .restoreSnapshot view id => (ctx.memory.restoreSnapshot (view + 1) id).map (fun r =>
    (.reply (if r.1 then .done else .missing id), {ctx with memory := r.2}))
  | .add module name data topics => some (ctx.logged (ctx.eventLogs.add module name data topics))
  | .addUnrevertible module name data topics => some (ctx.logged (ctx.eventLogs.addUnrevertible module name data topics))

def Call.added (ctx : Context) : Call → List (Bool × Event)
  | .add module name data topics => ((ctx.eventLogs.createEvent module name data topics).toOption.map (false, ·)).toList
  | .addUnrevertible module name data topics =>
    ((ctx.eventLogs.createEvent module name data topics).toOption.map (true, ·)).toList
  | _ => []

inductive Program where
  | done (err : Option ExecError)
  | call (c : Call) (next : Answer → Program)

namespace Program

def run : Program → Context → Option (Option ExecError × Context)
  | .done err, ctx => some (err, ctx)
  | .call c next, ctx =>
    match c.perform ctx with
    | none => none
    | some (answer, ctx) => (next answer).run ctx

def added : Program → Context → List (Bool × Event)
  | .done _, _ => []
  | .call c next, ctx =>
    match c.perform ctx with
    | none => []
    | some (answer, ctx') => c.added ctx ++ (next answer).added ctx'

end Program

structure Module where
  name : String
  beforeCommandExecute : Context → Context × Option ExecError
  afterCommandExecute : Context → Context × Option ExecError
  getCommand : String → Option (Context → Program)

def getCommand (modules : List Module) (module command : String) : Option (Context → Program) :=
  (modules.find? (fun mod => mod.name == module)).bind (fun mod => mod.getCommand command)

def runHooks (hook : Module → Context → Context × Option ExecError) : List Module → Context → Context × Option ExecError
  | [], ctx => (ctx, none)
  | mod :: rest, ctx =>
    match hook mod ctx with
    | (ctx, some err) => (ctx, some err)
    | (ctx, none) => runHooks hook rest ctx

inductive ExecResult where
  | invalid (err : ExecError)
  | fail (err : ExecError)
  | ok
  deriving DecidableEq, Repr

def standardTransactionEventData (text : Normalizer) (success : Bool) : Option Bytes :=
  Schema.encode text (.cons 1 .bool .nil) (success, ())

def Context.createSnapshots (ctx : Context) : Option (Int × Context) :=
  (ctx.memory.snapshot 0).map (fun taken =>
    (taken.1, {ctx with memory := taken.2, eventLogs := ctx.eventLogs.createSnapshot}))

/-- The end of a command: an error if the snapshot was gone, or else the error of the command if any. -/
def endCommand (snapshotID : Int) (ctx : Context) : Option ExecError → Option (Except ExecError (Option ExecError) × Context)
  | none => (ctx.memory.deleteSnapshot 0 snapshotID).map (fun memory => (.ok none, {ctx with memory := memory}))
  | some cmdErr =>
    match ctx.memory.restoreSnapshot 0 snapshotID with
    | none => none
    | some (false, _) => some (.error (.snapshotMissing snapshotID), ctx)
    | some (true, memory) => (memory.deleteSnapshot 0 snapshotID).map (fun memory =>
      (.ok (some cmdErr), {ctx with memory := memory, eventLogs := ctx.eventLogs.restoreSnapshot}))

def afterCommand (text : Normalizer) (modules : List Module) (ctx : Context) (cmdErr : Option ExecError) :
    Option (ExecResult × Context) :=
  match runHooks Module.afterCommandExecute modules ctx with
  | (ctx, some err) => some (.invalid (.transaction ctx.transaction.id err), ctx)
  | (ctx, none) =>
    match standardTransactionEventData text cmdErr.isNone with
    | none => none
    | some data =>
      match ctx.eventLogs.add ctx.transaction.module eventNameDefault data [] with
      | .error err => some (.invalid (.transaction ctx.transaction.id err), ctx)
      | .ok logs =>
        match cmdErr with
        | none => some (.ok, {ctx with eventLogs := logs})
        | some err => some (.fail err, {ctx with eventLogs := logs})

def executeTransaction (text : Normalizer) (modules : List Module) (ctx : Context) : Option (ExecResult × Context) :=
  let ctx := {ctx with eventLogs := ctx.eventLogs.setDefaultTopic ctx.transaction.id}
  match runHooks Module.beforeCommandExecute modules ctx with
  | (ctx, some err) => some (.invalid err, ctx)
  | (ctx, none) =>
    match getCommand modules ctx.transaction.module ctx.transaction.command with
    | none => some (.invalid (.transaction ctx.transaction.id
        (.commandMissing ctx.transaction.module ctx.transaction.command)), ctx)
    | some command =>
      match ctx.createSnapshots with
      | none => none
      | some (snapshotID, ctx) =>
        match (command ctx).run ctx with
        | none => none
        | some (cmdErr, ctx) =>
          match endCommand snapshotID ctx cmdErr with
          | none => none
          | some (.error err, ctx) => some (.invalid err, ctx)
          | some (.ok cmdErr, ctx) => afterCommand text modules ctx cmdErr

end LiskEngine.StateMachine
