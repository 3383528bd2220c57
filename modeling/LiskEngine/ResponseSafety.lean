import LiskEngine.ResponseDelivery

/-! Where a returned response comes from, and when the lock of the channels is never free again. -/
namespace LiskEngine.P2P
open StepRun Function

def Given (s : State) (r : Nat) (res : Response) : Prop :=
  ∃ h hd newMsg, s.handlers h = some hd ∧ (hd.phase = .handed newMsg r ∨ hd.phase = .delivered newMsg r) ∧ res = hd.response newMsg

structure Sourced (s : State) : Prop where
  asked : ∀ h hd newMsg r, s.handlers h = some hd → hd.phase = .sending newMsg r →
    ∃ q, s.requesters r = some q ∧ q.phase.registered = true
  source : ∀ r q res, s.requesters r = some q → q.phase.has res → Given s r res

section
variable {s : State} {r h : Nat} {q : Requester} {hd : Handler} (sourced : Sourced s)
include sourced

theorem sourcedMoved (held : s.requesters r = some q) (phase : Phase) (resCh : String → Option Nat)
    (keeps : ∀ h hd newMsg, s.handlers h = some hd → hd.phase = .sending newMsg r → q.phase.registered = true → phase.registered = true)
    (old : ∀ res, phase.has res → q.phase.has res ∨ Given s r res) : Sourced {s.setRequester r q phase with resCh := resCh} := by
  refine ⟨fun h hd newMsg r' hit sends => ?_,fun r' q' res hit has => ?_⟩
  · obtain ⟨q',held',waits⟩ := sourced.asked h hd newMsg r' hit sends
    by_cases here : r' = r
    · subst here
      cases held.symm.trans held'
      exact ⟨_,update_self ..,keeps h hd newMsg hit sends waits⟩
    · exact ⟨q',(update_of_ne here ..).trans held',waits⟩
  · rcases updatedSome hit with ⟨rfl,rfl⟩ | ⟨_,hit⟩
    · exact (old res has).elim (sourced.source r' q res held) id
    · exact sourced.source r' q' res hit has

theorem sourcedHandler (h : Nat) (hd' : Handler) {resMu counters}
    (stays : ∀ hd, s.handlers h = some hd → ∀ newMsg r, hd.phase = .handed newMsg r ∨ hd.phase = .delivered newMsg r →
      (hd'.phase = .handed newMsg r ∨ hd'.phase = .delivered newMsg r) ∧ hd'.response newMsg = hd.response newMsg)
    (own : ∀ newMsg r, hd'.phase = .sending newMsg r → ∃ q, s.requesters r = some q ∧ q.phase.registered = true) :
    Sourced {s with handlers := update s.handlers h (some hd'), resMu := resMu, counters := counters} := by
  refine ⟨fun h' hd newMsg r hit sends => ?_,fun r q res hit has => ?_⟩
  · rcases updatedSome hit with ⟨rfl,rfl⟩ | ⟨_,hit⟩
    · exact own newMsg r sends
    · exact sourced.asked h' hd newMsg r hit sends
  · obtain ⟨h',hd,newMsg,held,given,same⟩ := sourced.source r q res hit has
    by_cases here : h' = h
    · subst here
      obtain ⟨given',same'⟩ := stays hd held newMsg r given
      exact ⟨h',hd',newMsg,update_self ..,given',same.trans same'.symm⟩
    · exact ⟨h',hd,newMsg,(update_of_ne here ..).trans held,given,same⟩

theorem sourcedTaken {s' e} (registry : Registry s) (locking : Locking s) (taken : Taken s e s') : Sourced s' := by
  cases taken with
  | @create r asked id unused fresh =>
    refine ⟨fun h hd newMsg r' hit sends => ?_,fun r' q res hit has => ?_⟩
    · obtain ⟨q,held,waits⟩ := sourced.asked h hd newMsg r' hit sends
      have other : r' ≠ r := fun here => by rw [here,unused] at held; cases held
      exact ⟨q,(update_of_ne other ..).trans held,waits⟩
    · rcases updatedSome hit with ⟨rfl,rfl⟩ | ⟨_,hit⟩
      · rcases has with has | has <;> cases has
      · exact sourced.source r' q res hit has
  | @send r ok id asked held =>
    refine sourcedMoved sourced held _ s.resCh (by simp [Phase.registered]) (fun res has => ?_)
    cases ok <;> rcases has with has | has <;> cases has
  | register free held => exact sourcedMoved sourced held _ _ (by simp [Phase.registered]) (by simp [Phase.has])
  | timeout held | cancel held => exact sourcedMoved sourced held _ s.resCh (fun _ _ _ _ _ _ => rfl) (by simp [Phase.has])
  | @unregister r q result free held left =>
    refine sourcedMoved sourced held _ _ (fun h hd newMsg hit sends => ?_) (fun res has => ?_)
    · exact absurd (by rw [sends]; rfl) (locking.noHolder free hit)
    · cases phase : q.phase <;> simp_all [unregistered,Phase.has]
  | arrive unused => exact sourcedHandler sourced _ _ (by simp [unused]) (by simp)
  | @check _ _ hd phase counters kind held before after =>
    refine sourcedHandler sourced _ _ (fun hd' held' m r given => ?_) (fun m r sends => ?_)
    · cases held.symm.trans held'
      rcases given with given | given <;> rw [given] at before <;> cases before
    · rw [show phase = _ from sends] at after
      cases after
  | unknown free held missing => exact sourcedHandler sourced _ _ (by simp [held]) (by simp)
  | found free held channel =>
    refine sourcedHandler sourced _ _ (by simp [held]) (fun m r sends => ?_)
    cases sends
    obtain ⟨q,held',_,waits⟩ := (registry.registered _ _).mp channel
    exact ⟨q,held',waits⟩
  | @handover h now r peer newMsg id asked held wait =>
    have handed : Sourced {s with handlers := update s.handlers h (some ⟨now,peer,.handed newMsg r⟩)} :=
      sourcedHandler sourced h _ (by simp [held]) (by simp)
    refine sourcedMoved handed wait _ s.resCh (fun _ _ _ _ _ _ => rfl) (fun res has => .inr ⟨h,_,newMsg,update_self ..,.inl rfl,?_⟩)
    rcases has with has | has <;> cases has
    rfl
  | unlock held => exact sourcedHandler sourced _ _ (by simp [held,Handler.response]) (by simp)
  | counts counters kind => exact ⟨sourced.asked,sourced.source⟩

end

theorem sourcedRun (ran : run (step mp) State.start steps = some s) : Sourced s := by
  have all := runHistory (J := fun past s => Reached mp past s ∧ Sourced s) ⟨reachedRun rfl,⟨nofun,nofun⟩⟩
    (fun past s e s' ran both ok => ?_) ran
  · exact all.2
  · have past' : run (step mp) State.start (past ++ [e]) = some s' := by rw [runSnoc,ran]; exact ok
    exact ⟨reachedRun past',sourcedTaken both.2 both.1.registry both.1.locking (stepTaken ok)⟩

/-- The handler holds the lock and waits for a requester that has left its wait and waits for the lock. -/
def Deadlocked (s : State) (h r : Nat) : Prop :=
  ∃ hd q newMsg, s.handlers h = some hd ∧ hd.phase = .sending newMsg r ∧ s.resMu = some h ∧ s.requesters r = some q ∧
    (unregistered q.phase).isSome = true

theorem noDeadlockIff (mp : MessageProtocol) (steps : List Step) (s : State) (ran : run (step mp) State.start steps = some s) :
    (¬∃ h r, Deadlocked s h r) ↔ ∀ h hd newMsg r, s.handlers h = some hd → hd.phase = .sending newMsg r → Timely mp steps h r := by
  obtain ⟨_,locking,served⟩ := reachedRun ran
  constructor
  · intro free h hd newMsg r held sends
    obtain ⟨q,held',registered⟩ := (sourcedRun ran).asked h hd newMsg r held sends
    refine (served h r).mp (.inr ⟨hd,q,newMsg,held,sends,held',?_⟩)
    by_contra left
    refine free ⟨h,r,hd,q,newMsg,held,sends,locking.holder h hd held (by rw [sends]; rfl),held',?_⟩
    cases phase : q.phase <;> simp_all [unregistered,Phase.registered]
  · rintro timely ⟨h,r,hd,q,newMsg,held,sends,_,held',left⟩
    rcases (served h r).mpr (timely h hd newMsg r held sends) with ⟨hd',_,m,held'',given,_⟩ | ⟨_,q',_,_,_,held'',waiting⟩
    · cases held.symm.trans held''
      rw [sends] at given
      rcases given with given | given <;> cases given
    · cases held'.symm.trans held''
      rw [waiting] at left
      cases left

theorem noDeadlockSample : ∃ s, run (step sampleProtocol) State.start timelySteps = some s ∧ ¬∃ h r, Deadlocked s h r := by
  have ended : (run (step sampleProtocol) State.start timelySteps).map (·.resMu) = some none := by decide +kernel
  obtain ⟨s,ran,free⟩ := Option.map_eq_some_iff.mp ended
  refine ⟨s,ran,(noDeadlockIff sampleProtocol timelySteps s ran).mpr (fun h hd newMsg r held sends => ?_)⟩
  exact absurd (by rw [sends]; rfl) ((reachedRun ran).locking.noHolder free held)

theorem lookupDeadlocks : (run (step sampleProtocol) State.start (timelySteps.take 7 ++ [.timeout 0])).map (fun s =>
    (s.requesters 0, s.handlers 0, s.resMu)) =
    some (some ⟨"1",[1],.timedOut⟩, some ⟨7, [1], .sending ⟨"1", "p", [5], ""⟩ 0⟩, some 0) := by
  decide +kernel

theorem peersTaken (taken : Taken s e s') : (s'.handlers h).map (·.remotePeer) = some peer ↔
    (s.handlers h).map (·.remotePeer) = some peer ∨ ∃ now buf, e = .arrive h now peer buf := by
  have moved : ∀ {h₀ hd} {hd' : Handler}, s.handlers h₀ = some hd → hd'.remotePeer = hd.remotePeer →
      (update s.handlers h₀ (some hd') h).map (·.remotePeer) = (s.handlers h).map (·.remotePeer) := by
    intro h₀ hd hd' held same
    by_cases here : h = h₀
    · subst here
      simp [held,same]
    · rw [update_of_ne here]
  cases taken with
  | create | send | register | timeout | cancel | unregister => exact (or_iff_left (by simp)).symm
  | @arrive h₀ now peer₀ buf unused =>
    by_cases here : h = h₀
    · subst here
      simp [unused]
    · simp [update_of_ne here,Ne.symm here]
  | check _ _ kind held =>
    rw [or_iff_left (by rcases kind with rfl | rfl <;> simp)]
    exact Eq.congr_left (moved held rfl)
  | unknown _ held | found _ held | handover held | unlock held =>
    rw [or_iff_left (by simp)]
    exact Eq.congr_left (moved held rfl)
  | counts _ kind => exact (or_iff_left (by rintro ⟨_,_,rfl⟩; cases kind)).symm

theorem peersRun (ran : run (step mp) State.start steps = some s) :
    ∀ h peer, (s.handlers h).map (·.remotePeer) = some peer ↔ ∃ now buf, .arrive h now peer buf ∈ steps := by
  refine runHistory (J := fun past s => ∀ h peer, (s.handlers h).map (·.remotePeer) = some peer ↔
    ∃ now buf, .arrive h now peer buf ∈ past) (by simp [State.start]) (fun past s e s' _ peers ok h peer => ?_) ran
  simp only [peersTaken (stepTaken ok),peers h peer,List.mem_append,List.mem_singleton,exists_or,eq_comm]

/-- A returned response is from the asked peer exactly if the message whose lookup was timely came from that peer. -/
theorem responseOriginIff (mp : MessageProtocol) (steps : List Step) (s : State) (ran : run (step mp) State.start steps = some s)
    (r : Nat) (id : String) (asked : PeerID) (res : Response) (held : s.requesters r = some ⟨id,asked,.returned (.ok res)⟩) :
    res.peerID = asked ↔ ∃ h now buf, .arrive h now asked buf ∈ steps ∧ Timely mp steps h r := by
  obtain ⟨_,locking,served⟩ := reachedRun ran
  constructor
  · rintro rfl
    obtain ⟨h,hd,newMsg,held',given,rfl⟩ := (sourcedRun ran).source r _ res held (.inr rfl)
    obtain ⟨now,buf,arrived⟩ := (peersRun ran h hd.remotePeer).mp (by rw [held']; rfl)
    exact ⟨h,now,buf,arrived,(served h r).mp (.inl ⟨hd,_,newMsg,held',given,held,.inr rfl⟩)⟩
  · rintro ⟨h,now,buf,arrived,timely⟩
    obtain ⟨hd,held',own⟩ := Option.map_eq_some_iff.mp ((peersRun ran h asked).mpr ⟨now,buf,arrived⟩)
    rcases (served h r).mpr timely with ⟨hd',_,newMsg,held'',given,_⟩ | ⟨_,q,_,_,_,held'',waiting⟩
    · cases held'.symm.trans held''
      obtain ⟨q,held'',has⟩ := locking.taken h hd newMsg r held' given
      cases held.symm.trans held''
      rcases has with has | has <;> cases has
      exact own
    · cases held.symm.trans held''
      cases waiting

theorem responseOriginSample : ∃ s, run (step sampleProtocol) State.start timelySteps = some s ∧
    ∃ h now buf, .arrive h now [1] buf ∈ timelySteps ∧ Timely sampleProtocol timelySteps h 0 := by
  have ended : (run (step sampleProtocol) State.start timelySteps).map (·.requesters 0) =
      some (some ⟨"1",[1],.returned (.ok ⟨7,[1],[5],none⟩)⟩) := by decide +kernel
  obtain ⟨s,ran,held⟩ := Option.map_eq_some_iff.mp ended
  exact ⟨s,ran,(responseOriginIff sampleProtocol timelySteps s ran 0 "1" [1] _ held).mp rfl⟩

theorem otherPeerAnswers : (run (step sampleProtocol) State.start [.create 0 [1] "1",.send 0 true,.register 0,.arrive 0 7 [2] sampleBytes,
    .check 0,.limit 0,.lookup 0,.handover 0,.unlock 0,.unregister 0]).map (·.requesters 0) =
    some (some ⟨"1",[1],.returned (.ok ⟨7,[2],[5],none⟩)⟩) := by
  decide +kernel

end LiskEngine.P2P
