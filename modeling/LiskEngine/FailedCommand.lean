import LiskEngine.StateMachine

/-! A command that fails. The stores of the context show what they showed before the command;
the events it added stay, those added with Add as well. -/
namespace LiskEngine.StateMachine
open List
open Blockchain (Event)
open Codec Diffdb

structure Called (a : Nat) (ctx ctx' : Context) (new : List (Bool × Event)) : Prop where
  memory : Memory.Kept a ctx.memory ctx'.memory
  snapshotIndex : ctx'.eventLogs.snapshotIndex = ctx.eventLogs.snapshotIndex
  events : ctx'.eventLogs.events = ctx.eventLogs.events ++ new.map (fun e => ⟨e.2,true⟩)

theorem loggedCalled (hidden : Memory.Hidden a ctx.memory) (unrevertible : Bool) (module name : String) (data : Bytes)
    (topics : List Bytes) : Called a ctx (ctx.logged (ctx.eventLogs.addWith true module name data topics)).2
      ((ctx.eventLogs.createEvent module name data topics).toOption.map (unrevertible,·)).toList := by
  unfold EventLogger.addWith
  split
  · rename_i err failed
    exact ⟨Memory.Kept.refl hidden,rfl,by simp [Context.logged,failed,Except.toOption]⟩
  · rename_i event created
    exact ⟨Memory.Kept.refl hidden,rfl,by simp [Context.logged,created,Except.toOption,EventLogger.append]⟩

theorem performed {a ctx ctx'} (hidden : Memory.Hidden a ctx.memory) {c : Call} {answer}
    (ok : c.perform ctx = some (answer,ctx')) : Called a ctx ctx' (c.added ctx) := by
  cases c with
  | getStore first second =>
    obtain ⟨⟨r,memory⟩,got,same⟩ := Option.map_eq_some_iff.mp ok
    cases same
    exact ⟨Memory.getStoreKept hidden got,rfl,by simp [Call.added]⟩
  | store view c =>
    obtain ⟨⟨r,memory⟩,got,same⟩ := Option.map_eq_some_iff.mp ok
    cases same
    exact ⟨Memory.callKept hidden got,rfl,by simp [Call.added]⟩
  | snapshot view =>
    obtain ⟨⟨id,memory⟩,got,same⟩ := Option.map_eq_some_iff.mp ok
    cases same
    exact ⟨Memory.snapshotKept hidden got,rfl,by simp [Call.added]⟩
  | restoreSnapshot view id =>
    obtain ⟨⟨done,memory⟩,got,same⟩ := Option.map_eq_some_iff.mp ok
    cases same
    exact ⟨Memory.restoreSnapshotKept hidden got,rfl,by simp [Call.added]⟩
  | add module name data topics =>
    have same : _ = ctx' := congrArg Prod.snd (Option.some.inj ok)
    rw [← same]
    exact loggedCalled hidden false module name data topics
  | addUnrevertible module name data topics =>
    have same : _ = ctx' := congrArg Prod.snd (Option.some.inj ok)
    rw [← same]
    exact loggedCalled hidden true module name data topics

theorem ran {a} {program : Program} {ctx ctx'} (hidden : Memory.Hidden a ctx.memory) {err}
    (ok : program.run ctx = some (err,ctx')) : Called a ctx ctx' (program.added ctx) := by
  induction program generalizing ctx with
  | done res =>
    cases ok
    exact ⟨Memory.Kept.refl hidden,rfl,by simp [Program.added]⟩
  | call c next ih =>
    cases step : c.perform ctx with
    | none => simp [Program.run,step] at ok
    | some res =>
      obtain ⟨answer,middle⟩ := res
      have first := performed hidden step
      simp only [Program.run,step] at ok
      have second := ih answer first.memory.hidden ok
      refine ⟨first.memory.trans second.memory,second.snapshotIndex.trans first.snapshotIndex,?_⟩
      rw [second.events,first.events,append_assoc,← map_append]
      simp [Program.added,step]

def placed (start : Nat) (events : List Event) : List Event := (events.zipIdx start).map (fun e => {e.1 with index := e.2})

/-- A failed command leaves no trace: the stores show what they showed, and the log has only the events
added as unrevertible behind the events before, each with its position as index. -/
structure Traceless (before after : Context) (added : List (Bool × Event)) : Prop where
  state : ∀ storePrefix substorePrefix c, after.reads storePrefix substorePrefix c = before.reads storePrefix substorePrefix c
  events : after.events = before.events ++ placed before.events.length ((added.filter (·.1)).map Prod.snd)
  indexes : ∀ i (e : Event), after.events[i]? = some e → e.index = i

theorem restoredEvents (called : Called a ctx failed added) (taken : ctx.eventLogs.snapshotIndex = ctx.eventLogs.events.length) :
    failed.eventLogs.restoreSnapshot.events.map (·.event) =
      ctx.events ++ ((added.map Prod.snd).zipIdx ctx.events.length).map (fun e => {e.1 with index := u32 e.2}) := by
  have index : failed.eventLogs.snapshotIndex.toNat = ctx.eventLogs.events.length := by rw [called.snapshotIndex,taken]; rfl
  unfold EventLogger.restoreSnapshot
  rw [if_neg (by rw [called.snapshotIndex,taken]; omega)]
  simp only [index,called.events,take_left,drop_left,EventLogger.keepLoopAll]
  simp [Context.events,filter_map,Function.comp_def,zipIdx_map]

theorem placedSmall (small : start+events.length ≤ 2^32) :
    (events.zipIdx start).map (fun e => {e.1 with index := u32 e.2}) = placed start events := by
  refine map_congr_left (fun e mem => ?_)
  have below := snd_lt_add_of_mem_zipIdx mem
  rw [u32Small (by norm_num at small; omega)]

theorem indexOf (l : EventLogger) (found : (l.events.map (·.event))[i]? = some e) : e.index = u32 i := by
  rw [List.getElem?_map,Option.map_eq_some_iff] at found
  obtain ⟨logged,place,rfl⟩ := found
  have fit := (List.getElem?_eq_some_iff.mp place).1
  have index := congrArg (·[i]?) l.numbered
  simp only [List.getElem?_map,place,Option.map_some,List.getElem?_range fit] at index
  exact Option.some.inj index

theorem indexesIff (l : EventLogger) :
    (∀ i (e : Event), (l.events.map (·.event))[i]? = some e → e.index = i) ↔ l.events.length ≤ 2^32 := by
  constructor
  · intro positions
    by_contra more
    obtain ⟨i,wide⟩ : ∃ i, i = 2^32 := ⟨_,rfl⟩
    have fit : i < (l.events.map (·.event)).length := by rw [length_map]; omega
    have found := getElem?_eq_getElem fit
    have wraps := indexOf l found
    rw [positions i _ found,wide] at wraps
    exact absurd wraps (by decide)
  · intro few i e found
    have fit := (List.getElem?_eq_some_iff.mp found).1
    rw [length_map] at fit
    rw [indexOf l found,u32Small (by norm_num at few; omega)]

theorem snapshotsCreated {ctx started : Context} {id} (starts : ctx.createSnapshots = some (id,started)) :
    ctx.memory.snapshot 0 = some (id,started.memory) ∧ started.eventLogs.snapshotIndex = started.eventLogs.events.length := by
  obtain ⟨taken,snapshot,same⟩ := Option.map_eq_some_iff.mp starts
  cases same
  exact ⟨snapshot,rfl⟩

section
variable (text : Normalizer) (modules : List Module) (ctx hooked started failed : Context)
  (command : Context → Program) (snapshotID : Int) (cmdErr : ExecError)
  (hooks : runHooks Module.beforeCommandExecute modules
    {ctx with eventLogs := ctx.eventLogs.setDefaultTopic ctx.transaction.id} = (hooked, none))
  (found : getCommand modules hooked.transaction.module hooked.transaction.command = some command)
  (starts : hooked.createSnapshots = some (snapshotID, started))
  (fails : (command started).run started = some (some cmdErr, failed))
include hooks found starts fails

theorem failedCommandEnds : ∃ after, endCommand snapshotID failed (some cmdErr) = some (.ok (some cmdErr), after) ∧
    executeTransaction text modules ctx = afterCommand text modules after (some cmdErr) ∧
    (∀ storePrefix substorePrefix c, after.reads storePrefix substorePrefix c = started.reads storePrefix substorePrefix c) ∧
    after.events = started.events ++ ((((command started).added started).map Prod.snd).zipIdx started.events.length).map
      (fun e => {e.1 with index := u32 e.2}) := by
  obtain ⟨taken,index⟩ := snapshotsCreated starts
  have called := ran (Memory.snapshotHidden taken) fails
  obtain ⟨back,deleted,restore,delete,_,shows⟩ := Memory.rollback taken called.memory
  have ended : endCommand snapshotID failed (some cmdErr) =
      some (.ok (some cmdErr), {failed with memory := deleted, eventLogs := failed.eventLogs.restoreSnapshot}) := by
    simp only [endCommand,restore,delete,Option.map_some]
  refine ⟨_,ended,?_,fun first second c => (shows _ c).trans (Memory.snapshotReads taken _ c).symm,restoredEvents called index⟩
  unfold executeTransaction
  simp only [hooks,found,starts,fails,ended]

theorem failedCommandIff : ∃ after, endCommand snapshotID failed (some cmdErr) = some (.ok (some cmdErr), after) ∧
    executeTransaction text modules ctx = afterCommand text modules after (some cmdErr) ∧
    (Traceless started after ((command started).added started) ↔ (∀ e ∈ (command started).added started, e.1 = true) ∧
        started.events.length + ((command started).added started).length ≤ 2 ^ 32) := by
  obtain ⟨after,ended,run,shows,events⟩ :=
    failedCommandEnds text modules ctx hooked started failed command snapshotID cmdErr hooks found starts fails
  refine ⟨after,ended,run,?_⟩
  have many : after.eventLogs.events.length = started.events.length + ((command started).added started).length := by
    have lengths := congrArg length events
    simpa [Context.events] using lengths
  constructor
  · intro traceless
    have lengths := congrArg length (events.symm.trans traceless.events)
    simp only [placed,length_map,length_append,length_zipIdx] at lengths
    have all : (((command started).added started).filter (fun e => e.1)).length = ((command started).added started).length := by omega
    refine ⟨length_filter_eq_length_iff.mp all,?_⟩
    rw [← many]
    exact (indexesIff _).mp traceless.indexes
  · rintro ⟨unrevertible,few⟩
    refine ⟨shows,?_,(indexesIff _).mpr (by rwa [many])⟩
    rw [filter_eq_self.mpr unrevertible,← placedSmall (by simpa using few)]
    exact events

end

def plainText : Normalizer := .plain

def sampleContext : Context := ⟨Memory.new (OrderedMap.empty.set [1,2,3] [7]) [],EventLogger.new 5,
  ⟨[9],"token","transfer",0,0,[],[],[]⟩⟩

def failing (calls : List Call) : Program :=
  calls.foldr (fun c rest => .call c (fun _ => rest)) (.done (some (.custom "failed")))

def sampleModule (calls : List Call) : Module :=
  ⟨"token",fun ctx => (ctx, none),fun ctx => (ctx, none),fun _ => some (fun _ => failing calls)⟩

def hookedSample : Context := {sampleContext with eventLogs := sampleContext.eventLogs.setDefaultTopic [9]}

def sampleCalls : List Call :=
  [.getStore [1] [2],.store 0 (.run (.set [3] [8])),.snapshot 0,.store 0 (.run (.del [3])),.restoreSnapshot 0 0,
    .addUnrevertible "token" "burn" [] []]

theorem failedCommandSample : ∃ started failed after, hookedSample.createSnapshots = some (0, started) ∧
    (failing sampleCalls).run started = some (some (.custom "failed"), failed) ∧
    executeTransaction plainText [sampleModule sampleCalls] sampleContext =
      afterCommand plainText [sampleModule sampleCalls] after (some (.custom "failed")) ∧
    Traceless started after ((failing sampleCalls).added started) := by
  obtain ⟨after,_,run,iff⟩ := failedCommandIff plainText [sampleModule sampleCalls] sampleContext hookedSample _ _ _ _ _
    rfl rfl rfl rfl
  exact ⟨_,_,after,rfl,rfl,run,iff.mpr (by decide)⟩

theorem addedEventStays : ∃ started failed after, hookedSample.createSnapshots = some (0, started) ∧
    (failing [.add "token" "burn" [] []]).run started = some (some (.custom "failed"), failed) ∧
    executeTransaction plainText [sampleModule [.add "token" "burn" [] []]] sampleContext =
      afterCommand plainText [sampleModule [.add "token" "burn" [] []]] after (some (.custom "failed")) ∧
    started.events = [] ∧ (failing [.add "token" "burn" [] []]).added started = [(false, ⟨"token", "burn", [], [[9]], 5, 0⟩)] ∧
    after.events = [⟨"token", "burn", [], [[9]], 5, 0⟩] := by
  obtain ⟨after,_,run,_,events⟩ := failedCommandEnds plainText [sampleModule [.add "token" "burn" [] []]] sampleContext
    hookedSample _ _ _ _ _ rfl rfl rfl rfl
  exact ⟨_,_,after,rfl,rfl,run,rfl,rfl,events⟩

end LiskEngine.StateMachine
