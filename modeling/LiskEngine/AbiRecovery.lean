import LiskEngine.StateRun
import LiskEngine.DiffdbHandles

/-! The application at start-up and the verification of a transaction. A revert reads the height of the
execution context, which is not there at start-up; a verification in the context reads the database. -/
namespace LiskEngine.Framework
open Diffdb (Write CacheValue Database View Operation Reply StoreCall Shows newShows perform ideal)
open Smt (emptyHash sampleSha)
open Codec (Normalizer)

namespace ABIHandler
variable (sha : Bytes → Bytes) (text : Normalizer)

def recoverHeight (a : ABIHandler) (height : Nat) (stateRoot : Bytes) : Except HandlerError (Bytes × ABIHandler) :=
  match a.executionContext with
  | some context => a.revertHeight sha text context height stateRoot []
  | none => do
    let _ ← a.revertHeight sha text ⟨[],0,OrderedMap.empty⟩ height stateRoot []
    .error .nilContext

def initLoop : Nat → ABIHandler → Nat → Bytes → Except HandlerError (Bytes × ABIHandler)
  | 0, a, _, currentRoot => .ok (currentRoot, a)
  | rounds + 1, a, currentHeight, currentRoot => do
    let (nextRoot, a) ← a.recoverHeight sha text currentHeight currentRoot
    initLoop rounds a (currentHeight - 1) nextRoot

def init (a : ABIHandler) (lastBlockHeight : Nat) (lastStateRoot : Bytes) : Except HandlerError ABIHandler :=
  let (currentHeight, currentRoot) := a.stateDB.current sha
  if currentHeight < lastBlockHeight then .error (.invalidHeight currentHeight lastBlockHeight)
  else do
    let (currentRoot, a) ← initLoop sha text (currentHeight - lastBlockHeight) a currentHeight currentRoot
    if currentRoot ≠ lastStateRoot then .error (.rootConflict lastBlockHeight currentRoot lastStateRoot) else .ok a

end ABIHandler

section
variable {sha : Bytes → Bytes} {text : Normalizer} {a : ABIHandler}

theorem initIdle (idle : a.executionContext = none) {height root a'} :
    a.init sha text height root = .ok a' ↔ a.stateDB.current sha = (height,root) ∧ a' = a := by
  obtain ⟨now,top,stored⟩ : ∃ now top, a.stateDB.current sha = (now,top) := ⟨_,_,rfl⟩
  simp only [ABIHandler.init,stored,Prod.mk.injEq]
  split
  · simp only [reduceCtorEq,false_iff]
    omega
  cases rounds : now-height with
  | zero =>
    obtain rfl : now = height := by omega
    simp only [ABIHandler.initLoop,bind,Except.bind]
    split <;> simp_all [eq_comm]
  | succ n =>
    refine ⟨fun ok => ?_,fun same => by omega⟩
    obtain ⟨_,looped,_⟩ := bindOk ok
    obtain ⟨_,recovered,_⟩ := bindOk looped
    rw [ABIHandler.recoverHeight,idle] at recovered
    obtain ⟨_,_,failed⟩ := bindOk recovered
    cases failed

def Commits (first : Nat) (steps : List Step) : Prop :=
  ∀ i step, steps[i]? = some step → ∃ id expected operations order, step = Step.commit id (first + i) expected operations order

theorem commitStored {id} (ok : runStep sha text a root (.commit id height expected operations order) = .ok (root',a')) :
    a'.executionContext = none ∧ a'.stateDB.current sha = (height,root') := by
  obtain ⟨b,started,ok⟩ := bindOk ok
  obtain ⟨⟨r,c⟩,com,ok⟩ := bindOk ok
  cases ok
  refine ⟨rfl,?_⟩
  unfold ABIHandler.initStateMachine at started
  split at started
  · cases started
  cases started
  obtain ⟨context,checked,com⟩ := bindOk com
  simp only [ABIHandler.checkState,ABIHandler.execute,Option.map_some,if_true] at checked
  cases checked
  simp only at com
  split at com
  · cases com
  obtain ⟨_,_,com⟩ := bindOk com
  obtain ⟨_,_,com⟩ := bindOk com
  cases com
  rfl

theorem runStored {steps} (commits : Commits first steps) (filled : steps ≠ []) (ran : runSteps sha text a root steps = .ok (root',a')) :
    a'.executionContext = none ∧ a'.stateDB.current sha = (first+steps.length-1,root') := by
  induction steps generalizing a root first with
  | nil => exact absurd rfl filled
  | cons step rest ih =>
    obtain ⟨id,expected,ops,order,rfl⟩ := commits 0 step rfl
    obtain ⟨⟨r,b⟩,stepped,ran⟩ := bindOk ran
    cases rest with
    | nil =>
      cases ran
      exact commitStored stepped
    | cons next rest =>
      have later : Commits (first+1) (next::rest) := fun i step at' => by
        rw [Nat.add_assoc,Nat.add_comm 1]
        exact commits (i+1) step at'
      have stored := ih later (by simp) ran
      rwa [Nat.add_assoc,Nat.add_comm 1] at stored

theorem initRecoversIff (commits : Commits first (before ++ after)) (filled : before ≠ [])
    (reached : runSteps sha text ⟨StateDB.empty,none⟩ (emptyHash sha) before = .ok (root, b))
    (ran : runSteps sha text ⟨StateDB.empty,none⟩ (emptyHash sha) (before ++ after) = .ok (root', a)) :
    (∃ a', a.init sha text (first + before.length - 1) root = .ok a' ∧ a'.stateDB.state = b.stateDB.state ∧
      a'.stateDB.current sha = (first + before.length - 1, root)) ↔ after = [] := by
  obtain ⟨idle,stored⟩ := runStored commits (by simp [filled]) ran
  constructor
  · rintro ⟨a',ok,_⟩
    obtain ⟨same,_⟩ := (initIdle idle).mp ok
    rw [stored,List.length_append,Prod.mk.injEq] at same
    have count := List.length_pos_of_ne_nil filled
    exact List.eq_nil_of_length_eq_zero (by omega)
  · rintro rfl
    rw [List.append_nil] at ran stored
    cases reached.symm.trans ran
    exact ⟨a,(initIdle idle).mpr ⟨stored,rfl⟩,rfl,stored⟩

end

def sampleCommits : List Step := [commitOf 1 [] OrderedMap.empty (storeSample [7]),commitOf 2 [] (sampleState [7]) (storeSample [8])]

theorem initRecoversSample : ∃ root a, runSteps sampleSha plainText ⟨StateDB.empty,none⟩
    (emptyHash sampleSha) sampleCommits = .ok (root, a) ∧
    ∃ a', a.init sampleSha plainText 2 root = .ok a' ∧ a'.stateDB.state = a.stateDB.state ∧ a'.stateDB.current sampleSha = (2, root) := by
  have commits : Commits 1 (sampleCommits ++ []) := by
    rintro (_ | _ | i) step at'
    · exact ⟨_,_,_,_,(Option.some.inj at').symm⟩
    · exact ⟨_,_,_,_,(Option.some.inj at').symm⟩
    · cases at'
  cases ran : runSteps sampleSha plainText ⟨StateDB.empty,none⟩ (emptyHash sampleSha) sampleCommits with
  | error e =>
    have fine : (runSteps sampleSha plainText ⟨StateDB.empty,none⟩ (emptyHash sampleSha) sampleCommits).isOk = true := by decide +kernel
    rw [ran] at fine
    cases fine
  | ok r => exact ⟨r.1,r.2,rfl,(initRecoversIff commits (by simp [sampleCommits]) ran (by rw [List.append_nil]; exact ran)).mpr rfl⟩

theorem initPanics : runSteps sampleSha plainText ⟨StateDB.empty,none⟩ (emptyHash sampleSha) sampleCommits >>= (fun r =>
    if (r.2.stateDB.diffs.get 2).isSome then r.2.init sampleSha plainText 1 (stateRoot sampleSha (sampleState [7])) else .ok r.2) =
    .error .nilContext := by
  decide +kernel

/-- The reads of a store that cannot be written. -/
inductive Read where
  | get (key : Bytes)
  | has (key : Bytes)
  | range (start stop : Bytes) (limit : Int) (reverse : Bool)
  | iterate (start : Bytes) (limit : Int) (reverse : Bool)

def Read.call : Read → StoreCall
  | .get key => .run (.get key)
  | .has key => .run (.has key)
  | .range start stop limit reverse => .run (.range start stop limit reverse)
  | .iterate start limit reverse => .iterate start limit reverse

/-- A verification reads and decides by what it has read. -/
inductive Verification where
  | answer (result : Int)
  | read (view : View) (read : Read) (next : Reply → Verification)

namespace Verification

/-- A scan that panics gives no result. -/
def run : Verification → Database Bytes Bytes → Option (Int × Database Bytes Bytes)
  | answer result, db => some (result, db)
  | read view r next, db => (view.answer db r.call).bind (fun found => (next found.1).run found.2)

end Verification

def ABIHandler.verifyTransaction (a : ABIHandler) (contextID : Bytes) (v : Verification) : Option (Int × ABIHandler) :=
  match a.executionContext with
  | none => (v.run (Database.new a.stateDB.state)).map (fun ran => (ran.1, a))
  | some context =>
    if context.id = contextID then (v.run (Database.new a.stateDB.state)).map (fun ran => (ran.1, a))
    else (v.run (a.overlay context)).map (fun ran =>
      (ran.1, {a with executionContext := some {context with diffStore := ran.2.cache}}))

/-- A call that fails leaves the handler as it is. -/
inductive Call where
  | execute (operations : List (View × Operation))
  | verify (contextID : Bytes) (v : Verification)
  | commit (req : CommitRequest) (order : List (Bytes × CacheValue Bytes))
  | revert (req : RevertRequest)

def Call.operations : Call → List (View × Operation)
  | execute operations => operations
  | _ => []

/-- The calls that leave the state database alone. -/
def Call.quiet : Call → Bool
  | execute _ | verify _ _ => true
  | commit _ _ | revert _ => false

section
variable (sha : Bytes → Bytes) (text : Normalizer)

def ABIHandler.call (a : ABIHandler) : Call → ABIHandler
  | .execute operations => a.execute operations
  | .verify contextID v => ((a.verifyTransaction contextID v).map Prod.snd).getD a
  | .commit req order => ((a.commit sha text req order).toOption.map Prod.snd).getD a
  | .revert req => ((a.revert sha text req).toOption.map Prod.snd).getD a

variable {sha text} {a : ABIHandler} {id : Bytes}

end

def readSample : Verification := .read ⟨[]⟩ (.get sampleKey) (fun reply => .answer (if reply = .value none then 0 else 1))

def sampleCalls : List Call :=
  [.execute (storeSample [7]),.verify [] readSample,
    .commit ⟨[1],emptyHash sampleSha,[],false⟩ ((storeSample [7]).foldl perform (Database.new OrderedMap.empty)).cache.entries]

end LiskEngine.Framework
