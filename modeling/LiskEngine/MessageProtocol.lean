import LiskEngine.Codec
import Mathlib.Logic.Function.Basic

/-! Requests and responses of the message protocol. Requesters and response handlers are threads that
share the map of response channels under one lock; a channel has no buffer, so a handler that found one
holds the lock until the requester takes the response. Every order of the steps is a run. -/
namespace LiskEngine.P2P
open Codec

abbrev PeerID := Bytes

structure ResponseMsg where
  id : String
  procedure : String
  data : Bytes
  error : String
  deriving DecidableEq, Repr

def ResponseMsg.schema : Schema := .cons 1 .string (.cons 2 .string (.cons 3 .bytes (.cons 4 .string .nil)))

def ResponseMsg.ofValue : ResponseMsg.schema.Value → ResponseMsg
  | (id, procedure, data, error, ()) => ⟨id,procedure,data,error⟩

structure Response where
  timestamp : Nat
  peerID : PeerID
  data : Bytes
  err : Option String
  deriving DecidableEq, Repr

inductive RequestError where
  | sendFailed
  | errTimeout
  | ctxErr
  deriving DecidableEq, Repr

inductive Phase where
  | created
  | sent
  | waiting
  | received (resMsg : Response)
  | timedOut
  | cancelled
  | returned (result : Except RequestError Response)
  deriving DecidableEq

structure Requester where
  id : String
  asked : PeerID
  phase : Phase
  deriving DecidableEq

inductive DropReason where
  | undecodable (e : CodecError)
  | procedureNotRegistered (procedure : String)
  | rateLimit
  | unknownRequestID (id : String)
  deriving DecidableEq, Repr

inductive HandlerPhase where
  | arrived (buf : Bytes)
  | counted (newMsg : ResponseMsg)
  | checked (newMsg : ResponseMsg)
  | sending (newMsg : ResponseMsg) (requester : Nat)
  | handed (newMsg : ResponseMsg) (requester : Nat)
  | delivered (newMsg : ResponseMsg) (requester : Nat)
  | dropped (reason : DropReason)
  deriving DecidableEq

structure Handler where
  now : Nat
  remotePeer : PeerID
  phase : HandlerPhase
  deriving DecidableEq

def Handler.response (handler : Handler) (newMsg : ResponseMsg) : Response :=
  ⟨handler.now,handler.remotePeer,newMsg.data,if newMsg.error ≠ "" then some newMsg.error else none⟩

/-- The settings that the handlers read; `penalized` is whether the penalty for a peer over the limit
could be applied. -/
structure MessageProtocol where
  text : Normalizer
  rpcHandlers : List String
  limit : String → Int
  penalized : String → PeerID → Bool

structure State where
  requesters : Nat → Option Requester
  handlers : Nat → Option Handler
  resMu : Option Nat
  resCh : String → Option Nat
  counters : String → PeerID → Nat
  issued : List String

def State.start : State := ⟨fun _ => none,fun _ => none,none,fun _ => none,fun _ _ => 0,[]⟩

/-- The steps of sendRequestMessage, of onResponse, of onRequest, which uses the same counters, and of
rateLimiterHandler, one procedure at a time. -/
inductive Step where
  | create (requester : Nat) (asked : PeerID) (id : String)
  | send (requester : Nat) (ok : Bool)
  | register (requester : Nat)
  | timeout (requester : Nat)
  | cancel (requester : Nat)
  | unregister (requester : Nat)
  | arrive (handler now : Nat) (remotePeer : PeerID) (buf : Bytes)
  | check (handler : Nat)
  | limit (handler : Nat)
  | lookup (handler : Nat)
  | handover (handler : Nat)
  | unlock (handler : Nat)
  | requestCount (procedure : String) (remotePeer : PeerID)
  | requestLimit (procedure : String) (remotePeer : PeerID)
  | resetCounters (procedure : String)
  deriving DecidableEq

namespace State

def setRequester (s : State) (r : Nat) (q : Requester) (phase : Phase) : State :=
  {s with requesters := Function.update s.requesters r (some {q with phase := phase})}

def setHandler (s : State) (h : Nat) (hd : Handler) (phase : HandlerPhase) : State :=
  {s with handlers := Function.update s.handlers h (some {hd with phase := phase})}

def setCounter (s : State) (procedure : String) (peer : PeerID) (count : Nat) : State :=
  {s with counters := fun p q => if p = procedure ∧ q = peer then count else s.counters p q}

end State

section
variable (mp : MessageProtocol)

def check (s : State) (h : Nat) (hd : Handler) (buf : Bytes) : State :=
  match ResponseMsg.schema.decode mp.text buf with
  | .error e => s.setHandler h hd (.dropped (.undecodable e))
  | .ok value =>
    let newMsg := ResponseMsg.ofValue value
    if newMsg.procedure ∈ mp.rpcHandlers then
      (s.setCounter newMsg.procedure hd.remotePeer (s.counters newMsg.procedure hd.remotePeer + 1)).setHandler h hd
        (.counted newMsg)
    else s.setHandler h hd (.dropped (.procedureNotRegistered newMsg.procedure))

/-- A peer over the limit gets a penalty and starts again from zero; only a penalty that fails stops
the message. -/
def checkLimit (s : State) (h : Nat) (hd : Handler) (newMsg : ResponseMsg) : State :=
  if (s.counters newMsg.procedure hd.remotePeer : Int) > mp.limit newMsg.procedure then
    if mp.penalized newMsg.procedure hd.remotePeer then
      (s.setCounter newMsg.procedure hd.remotePeer 0).setHandler h hd (.checked newMsg)
    else s.setHandler h hd (.dropped .rateLimit)
  else s.setHandler h hd (.checked newMsg)

def unregistered : Phase → Option (Except RequestError Response)
  | .received resMsg => some (.ok resMsg)
  | .timedOut => some (.error .errTimeout)
  | .cancelled => some (.error .ctxErr)
  | _ => none

/-- One step of one thread, if it is enabled. An ID is never issued twice. -/
def step (s : State) : Step → Option State
  | .create r asked id =>
    match s.requesters r with
    | none => if id ∈ s.issued then none
      else some {s with requesters := Function.update s.requesters r (some ⟨id,asked,.created⟩), issued := id :: s.issued}
    | some _ => none
  | .send r ok =>
    match s.requesters r with
    | some ⟨id,asked,.created⟩ => some (s.setRequester r ⟨id,asked,.created⟩ (if ok then .sent else .returned (.error .sendFailed)))
    | _ => none
  | .register r =>
    match s.resMu, s.requesters r with
    | none, some ⟨id,asked,.sent⟩ =>
      some {s.setRequester r ⟨id,asked,.sent⟩ .waiting with resCh := Function.update s.resCh id (some r)}
    | _, _ => none
  | .timeout r =>
    match s.requesters r with
    | some ⟨id,asked,.waiting⟩ => some (s.setRequester r ⟨id,asked,.waiting⟩ .timedOut)
    | _ => none
  | .cancel r =>
    match s.requesters r with
    | some ⟨id,asked,.waiting⟩ => some (s.setRequester r ⟨id,asked,.waiting⟩ .cancelled)
    | _ => none
  | .unregister r =>
    match s.resMu, s.requesters r with
    | none, some q => (unregistered q.phase).map (fun result =>
        {s.setRequester r q (.returned result) with resCh := Function.update s.resCh q.id none})
    | _, _ => none
  | .arrive h now remotePeer buf =>
    match s.handlers h with
    | none => some {s with handlers := Function.update s.handlers h (some ⟨now,remotePeer,.arrived buf⟩)}
    | some _ => none
  | .check h =>
    match s.handlers h with
    | some ⟨now,remotePeer,.arrived buf⟩ => some (check mp s h ⟨now,remotePeer,.arrived buf⟩ buf)
    | _ => none
  | .limit h =>
    match s.handlers h with
    | some ⟨now,remotePeer,.counted newMsg⟩ => some (checkLimit mp s h ⟨now,remotePeer,.counted newMsg⟩ newMsg)
    | _ => none
  | .lookup h =>
    match s.resMu, s.handlers h with
    | none, some ⟨now,remotePeer,.checked newMsg⟩ =>
      match s.resCh newMsg.id with
      | none => some (s.setHandler h ⟨now,remotePeer,.checked newMsg⟩ (.dropped (.unknownRequestID newMsg.id)))
      | some r => some {s.setHandler h ⟨now,remotePeer,.checked newMsg⟩ (.sending newMsg r) with resMu := some h}
    | _, _ => none
  | .handover h =>
    match s.handlers h with
    | some ⟨now,remotePeer,.sending newMsg r⟩ =>
      match s.requesters r with
      | some ⟨id,asked,.waiting⟩ =>
        let hd : Handler := ⟨now,remotePeer,.sending newMsg r⟩
        some ((s.setHandler h hd (.handed newMsg r)).setRequester r ⟨id,asked,.waiting⟩ (.received (hd.response newMsg)))
      | _ => none
    | _ => none
  | .unlock h =>
    match s.handlers h with
    | some ⟨now,remotePeer,.handed newMsg r⟩ =>
      some {s.setHandler h ⟨now,remotePeer,.handed newMsg r⟩ (.delivered newMsg r) with resMu := none}
    | _ => none
  | .requestCount procedure remotePeer =>
    if procedure ∈ mp.rpcHandlers then some (s.setCounter procedure remotePeer (s.counters procedure remotePeer + 1))
    else none
  | .requestLimit procedure remotePeer =>
    if (s.counters procedure remotePeer : Int) > mp.limit procedure ∧ mp.penalized procedure remotePeer then
      some (s.setCounter procedure remotePeer 0)
    else some s
  | .resetCounters procedure => some {s with counters := fun p q => if p = procedure then 0 else s.counters p q}

end

def HandlerPhase.early : HandlerPhase → Bool
  | .arrived _ | .counted _ => true
  | _ => false

def HandlerPhase.late : HandlerPhase → Bool
  | .sending _ _ | .handed _ _ | .delivered _ _ => true
  | _ => false

def Step.counts : Step → Bool
  | .requestCount _ _ | .requestLimit _ _ | .resetCounters _ => true
  | _ => false

inductive Taken (s : State) : Step → State → Prop where
  | create {r : Nat} {asked : PeerID} {id : String} (unused : s.requesters r = none) (fresh : id ∉ s.issued) :
    Taken s (.create r asked id)
      {s with requesters := Function.update s.requesters r (some ⟨id,asked,.created⟩), issued := id :: s.issued}
  | send {r : Nat} {ok : Bool} {id : String} {asked : PeerID} (held : s.requesters r = some ⟨id,asked,.created⟩) : Taken s (.send r ok)
      (s.setRequester r ⟨id,asked,.created⟩ (if ok then .sent else .returned (.error .sendFailed)))
  | register {r : Nat} {id : String} {asked : PeerID} (free : s.resMu = none) (held : s.requesters r = some ⟨id,asked,.sent⟩) :
    Taken s (.register r) {s.setRequester r ⟨id,asked,.sent⟩ .waiting with resCh := Function.update s.resCh id (some r)}
  | timeout {r : Nat} {id : String} {asked : PeerID} (held : s.requesters r = some ⟨id,asked,.waiting⟩) :
    Taken s (.timeout r) (s.setRequester r ⟨id,asked,.waiting⟩ .timedOut)
  | cancel {r : Nat} {id : String} {asked : PeerID} (held : s.requesters r = some ⟨id,asked,.waiting⟩) :
    Taken s (.cancel r) (s.setRequester r ⟨id,asked,.waiting⟩ .cancelled)
  | unregister {r : Nat} {q : Requester} {result : Except RequestError Response} (free : s.resMu = none)
    (held : s.requesters r = some q) (left : unregistered q.phase = some result) : Taken s (.unregister r)
      {s.setRequester r q (.returned result) with resCh := Function.update s.resCh q.id none}
  | arrive {h now : Nat} {peer : PeerID} {buf : Bytes} (unused : s.handlers h = none) : Taken s (.arrive h now peer buf)
      {s with handlers := Function.update s.handlers h (some ⟨now,peer,.arrived buf⟩)}
  | check {e : Step} {h : Nat} {hd : Handler} (phase : HandlerPhase) (counters : String → PeerID → Nat)
    (kind : e = .check h ∨ e = .limit h) (held : s.handlers h = some hd) (before : hd.phase.early = true)
    (after : phase.late = false) : Taken s e {s.setHandler h hd phase with counters := counters}
  | unknown {h now : Nat} {peer : PeerID} {newMsg : ResponseMsg} (free : s.resMu = none)
    (held : s.handlers h = some ⟨now,peer,.checked newMsg⟩) (missing : s.resCh newMsg.id = none) :
    Taken s (.lookup h) (s.setHandler h ⟨now,peer,.checked newMsg⟩ (.dropped (.unknownRequestID newMsg.id)))
  | found {h now r : Nat} {peer : PeerID} {newMsg : ResponseMsg} (free : s.resMu = none)
    (held : s.handlers h = some ⟨now,peer,.checked newMsg⟩) (channel : s.resCh newMsg.id = some r) :
    Taken s (.lookup h) {s.setHandler h ⟨now,peer,.checked newMsg⟩ (.sending newMsg r) with resMu := some h}
  | handover {h now r : Nat} {peer : PeerID} {newMsg : ResponseMsg} {id : String} {asked : PeerID}
    (held : s.handlers h = some ⟨now,peer,.sending newMsg r⟩) (wait : s.requesters r = some ⟨id,asked,.waiting⟩) :
    Taken s (.handover h) ((s.setHandler h ⟨now,peer,.sending newMsg r⟩ (.handed newMsg r)).setRequester r ⟨id,asked,.waiting⟩
      (.received (Handler.response ⟨now,peer,.sending newMsg r⟩ newMsg)))
  | unlock {h now r : Nat} {peer : PeerID} {newMsg : ResponseMsg} (held : s.handlers h = some ⟨now,peer,.handed newMsg r⟩) :
    Taken s (.unlock h) {s.setHandler h ⟨now,peer,.handed newMsg r⟩ (.delivered newMsg r) with resMu := none}
  | counts {e : Step} (counters : String → PeerID → Nat) (kind : e.counts = true) : Taken s e {s with counters := counters}

theorem checkTaken (held : s.handlers h = some hd) (early : hd.phase.early = true) : Taken s (.check h) (check mp s h hd buf) := by
  unfold check
  split
  · exact .check _ s.counters (.inl rfl) held early rfl
  simp only
  split
  · exact .check _ _ (.inl rfl) held early rfl
  · exact .check _ s.counters (.inl rfl) held early rfl

theorem limitTaken (held : s.handlers h = some hd) (early : hd.phase.early = true) :
    Taken s (.limit h) (checkLimit mp s h hd newMsg) := by
  unfold checkLimit
  split
  · split
    · exact .check _ _ (.inr rfl) held early rfl
    · exact .check _ s.counters (.inr rfl) held early rfl
  · exact .check _ s.counters (.inr rfl) held early rfl

theorem countsTaken (kind : e.counts = true) (ok : step mp s e = some s') : Taken s e s' := by
  cases e with
  | requestCount procedure peer =>
    simp only [step] at ok
    split at ok <;> cases ok
    exact .counts _ kind
  | requestLimit procedure peer =>
    simp only [step] at ok
    split at ok <;> cases ok
    · exact .counts _ kind
    · exact .counts s.counters kind
  | resetCounters procedure =>
    cases ok
    exact .counts _ kind
  | _ => cases kind

theorem stepTaken (ok : step mp s e = some s') : Taken s e s' := by
  cases e with
  | create r asked id =>
    simp only [step] at ok
    split at ok
    · split at ok
      · cases ok
      · cases ok
        exact .create ‹_› ‹_›
    · cases ok
  | send r sent =>
    simp only [step] at ok
    split at ok
    · cases ok
      exact .send ‹_›
    · cases ok
  | register r =>
    simp only [step] at ok
    split at ok
    · cases ok
      exact .register ‹_› ‹_›
    · cases ok
  | timeout r =>
    simp only [step] at ok
    split at ok
    · cases ok
      exact .timeout ‹_›
    · cases ok
  | cancel r =>
    simp only [step] at ok
    split at ok
    · cases ok
      exact .cancel ‹_›
    · cases ok
  | unregister r =>
    simp only [step] at ok
    split at ok
    · obtain ⟨res,left,rfl⟩ := Option.map_eq_some_iff.mp ok
      exact .unregister ‹_› ‹_› left
    · cases ok
  | arrive h now peer buf =>
    simp only [step] at ok
    split at ok
    · cases ok
      exact .arrive ‹_›
    · cases ok
  | check h =>
    simp only [step] at ok
    split at ok
    · cases ok
      exact checkTaken ‹_› rfl
    · cases ok
  | limit h =>
    simp only [step] at ok
    split at ok
    · cases ok
      exact limitTaken ‹_› rfl
    · cases ok
  | lookup h =>
    simp only [step] at ok
    split at ok
    · split at ok
      · cases ok
        exact .unknown ‹_› ‹_› ‹_›
      · cases ok
        exact .found ‹_› ‹_› ‹_›
    · cases ok
  | handover h =>
    simp only [step] at ok
    split at ok
    · split at ok
      · cases ok
        exact .handover ‹_› ‹_›
      · cases ok
    · cases ok
  | unlock h =>
    simp only [step] at ok
    split at ok
    · cases ok
      exact .unlock ‹_›
    · cases ok
  | requestCount | requestLimit | resetCounters => exact countsTaken rfl ok

end LiskEngine.P2P
