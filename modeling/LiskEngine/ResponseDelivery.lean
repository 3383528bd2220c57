import LiskEngine.MessageProtocol
import LiskEngine.StepRun

/-! Which responses reach their requester. The map of channels holds exactly the requesters between
registering and unregistering, a handler with a channel holds the lock, and from these the deliveries of
a run are read off its steps. -/
namespace LiskEngine.P2P
open Codec StepRun List Option Function

def Phase.registered : Phase → Bool
  | .waiting | .received _ | .timedOut | .cancelled => true
  | _ => false

theorem updatedSome {α β : Type} [DecidableEq α] {f : α → Option β} {a a' x y} (hit : update f a (some x) a' = some y) :
    (a' = a ∧ y = x) ∨ (a' ≠ a ∧ f a' = some y) := by
  rw [update_apply] at hit
  split at hit
  · exact .inl ⟨‹_›,(some.inj hit).symm⟩
  · exact .inr ⟨‹_›,hit⟩

structure Registry (s : State) : Prop where
  issued : ∀ r q, s.requesters r = some q → q.id ∈ s.issued
  distinct : ∀ r r' q q', s.requesters r = some q → s.requesters r' = some q' → q.id = q'.id → r = r'
  registered : ∀ id r, s.resCh id = some r ↔ ∃ q, s.requesters r = some q ∧ q.id = id ∧ q.phase.registered = true

theorem registryStart : Registry State.start := by
  constructor <;> simp [State.start]

section
variable {s : State} {r : Nat} {q : Requester}

theorem setRequesterAt (s : State) (r : Nat) (q : Requester) (phase : Phase) (r' : Nat) :
    (s.setRequester r q phase).requesters r' = if r' = r then some {q with phase := phase} else s.requesters r' := by
  simp [State.setRequester,update_apply]

theorem registryMoved (registry : Registry s) (held : s.requesters r = some q) (phase : Phase) {resCh}
    (own : resCh q.id = some r ↔ phase.registered = true) (others : ∀ r', r' ≠ r → resCh q.id ≠ some r')
    (same : ∀ id, id ≠ q.id → resCh id = s.resCh id) : Registry {s.setRequester r q phase with resCh := resCh} := by
  have moved : ∀ r' q', (s.setRequester r q phase).requesters r' = some q' → ∃ q'', s.requesters r' = some q'' ∧ q''.id = q'.id := by
    intro r' q' hit
    rcases updatedSome hit with ⟨rfl,rfl⟩ | ⟨_,old⟩
    · exact ⟨q,held,rfl⟩
    · exact ⟨q',old,rfl⟩
  refine ⟨fun r' q' hit => ?_,fun r1 r2 q1 q2 found1 found2 eq => ?_,fun id r' => ?_⟩
  · obtain ⟨q'',old,id⟩ := moved r' q' hit
    exact id ▸ registry.issued r' q'' old
  · obtain ⟨p1,old1,id1⟩ := moved r1 q1 found1
    obtain ⟨p2,old2,id2⟩ := moved r2 q2 found2
    exact registry.distinct r1 r2 p1 p2 old1 old2 (id1.trans (eq.trans id2.symm))
  · show resCh id = some r' ↔ ∃ q', (s.setRequester r q phase).requesters r' = some q' ∧ q'.id = id ∧ q'.phase.registered = true
    rw [setRequesterAt]
    by_cases here : r' = r
    · subst here
      by_cases name : id = q.id
      · subst name
        simp [own]
      · rw [same id name,registry.registered,held]
        simp [Ne.symm name]
    · rw [if_neg here]
      by_cases name : id = q.id
      · subst name
        refine iff_of_false (others r' here) ?_
        rintro ⟨q',hit,id,_⟩
        exact here (registry.distinct r' r q' q hit held id)
      · rw [same id name]
        exact registry.registered id r'

theorem registryKept (registry : Registry s) (held : s.requesters r = some q) (phase : Phase)
    (status : phase.registered = q.phase.registered) : Registry (s.setRequester r q phase) := by
  have own : s.resCh q.id = some r ↔ phase.registered = true := by
    rw [registry.registered,status]
    simp [held]
  have others : ∀ r', r' ≠ r → s.resCh q.id ≠ some r' := by
    intro r' apart hit
    obtain ⟨q',held',id,_⟩ := (registry.registered _ _).mp hit
    exact apart (registry.distinct r' r q' q held' held id)
  exact registryMoved registry held phase own others (fun _ _ => rfl)

theorem registryCongr (registry : Registry s) (requesters : s'.requesters = s.requesters) (resCh : s'.resCh = s.resCh)
    (issued : s'.issued = s.issued) : Registry s' := by
  refine ⟨?_,?_,?_⟩
  · rw [requesters,issued]
    exact registry.issued
  · rw [requesters]
    exact registry.distinct
  · rw [requesters,resCh]
    exact registry.registered

end

theorem unregisteredPhase (left : unregistered phase = some result) : phase.registered = true ∧ phase ≠ .waiting := by
  cases phase <;> simp_all [unregistered,Phase.registered]

theorem registryTaken {s s' e} (registry : Registry s) (taken : Taken s e s') : Registry s' := by
  cases taken with
  | @create r asked id unused fresh =>
    refine ⟨fun r' q' found => ?_,fun r1 r2 q1 q2 found1 found2 eq => ?_,fun id' r' => ?_⟩
    · rcases updatedSome found with ⟨_,rfl⟩ | ⟨_,held⟩
      · exact .head _
      · exact .tail _ (registry.issued r' q' held)
    · rcases updatedSome found1 with ⟨rfl,rfl⟩ | ⟨_,held1⟩
      · rcases updatedSome found2 with ⟨rfl,_⟩ | ⟨_,held2⟩
        · rfl
        · exact absurd (registry.issued r2 q2 held2) (eq ▸ fresh)
      · rcases updatedSome found2 with ⟨rfl,rfl⟩ | ⟨_,held2⟩
        · exact absurd (registry.issued r1 q1 held1) (eq ▸ fresh)
        · exact registry.distinct r1 r2 q1 q2 held1 held2 eq
    · show s.resCh id' = some r' ↔ _
      rw [registry.registered]
      constructor
      · rintro ⟨q',held,rest⟩
        refine ⟨q',?_,rest⟩
        have apart : r' ≠ r := by
          rintro rfl
          rw [unused] at held
          cases held
        simpa [apart] using held
      · rintro ⟨q',found,name,status⟩
        rcases updatedSome found with ⟨_,rfl⟩ | ⟨_,held⟩
        · cases status
        · exact ⟨q',held,name,status⟩
  | @send r ok id asked held => exact registryKept registry held _ (by cases ok <;> rfl)
  | @register r id asked free held =>
    refine registryMoved registry held .waiting (by simp [Phase.registered]) (fun r' apart => ?_) (fun id' apart => ?_)
    · simpa using Ne.symm apart
    · simp [apart]
  | timeout held | cancel held => exact registryKept registry held _ rfl
  | unregister free held left =>
    exact registryMoved registry held _ (by simp [Phase.registered]) (fun r' apart => by simp) (fun id' apart => by simp [apart])
  | @handover h now r peer newMsg id asked held wait =>
    have handed : Registry (s.setHandler h ⟨now,peer,.sending newMsg r⟩ (.handed newMsg r)) := registryCongr registry rfl rfl rfl
    exact registryKept handed wait _ rfl
  | arrive | check | unknown | found | unlock | counts => exact registryCongr registry rfl rfl rfl

def HandlerPhase.holding : HandlerPhase → Bool
  | .sending _ _ | .handed _ _ => true
  | _ => false

def Phase.has (phase : Phase) (resMsg : Response) : Prop := phase = .received resMsg ∨ phase = .returned (.ok resMsg)

structure Locking (s : State) : Prop where
  holder : ∀ h hd, s.handlers h = some hd → hd.phase.holding = true → s.resMu = some h
  taken : ∀ h hd newMsg r, s.handlers h = some hd → hd.phase = .handed newMsg r ∨ hd.phase = .delivered newMsg r →
    ∃ q, s.requesters r = some q ∧ q.phase.has (hd.response newMsg)

theorem lockingStart : Locking State.start := by
  constructor <;> simp [State.start]

section
variable {s : State} {r h : Nat} {q : Requester} {hd : Handler}

theorem handlerSelf (s : State) (h : Nat) (hd : Handler) (phase : HandlerPhase) :
    (s.setHandler h hd phase).handlers h = some {hd with phase := phase} := update_self ..

theorem lockingMoved (locking : Locking s) (held : s.requesters r = some q) (phase : Phase)
    (keeps : ∀ resMsg, q.phase.has resMsg → phase.has resMsg) (resCh : String → Option Nat) :
    Locking {s.setRequester r q phase with resCh := resCh} := by
  refine ⟨locking.holder,fun h hd newMsg r' hit phases => ?_⟩
  obtain ⟨q',held',has⟩ := locking.taken h hd newMsg r' hit phases
  rw [setRequesterAt]
  by_cases here : r' = r
  · subst here
    cases held.symm.trans held'
    exact ⟨_,if_pos rfl,keeps _ has⟩
  · exact ⟨q',by rw [if_neg here]; exact held',has⟩

theorem lockingHandler (locking : Locking s) (h : Nat) (hd' : Handler) {resMu} (counters : String → PeerID → Nat)
    (own : hd'.phase.holding = true → resMu = some h)
    (others : ∀ h' hd, h' ≠ h → s.handlers h' = some hd → hd.phase.holding = true → resMu = some h')
    (has : ∀ newMsg r, hd'.phase = .handed newMsg r ∨ hd'.phase = .delivered newMsg r → ∃ q,
      s.requesters r = some q ∧ q.phase.has (hd'.response newMsg)) :
    Locking {s with handlers := update s.handlers h (some hd'), resMu := resMu, counters := counters} := by
  refine ⟨fun h' hd hit holding => ?_,fun h' hd newMsg r hit phases => ?_⟩
  · rcases updatedSome hit with ⟨rfl,rfl⟩ | ⟨apart,old⟩
    · exact own holding
    · exact others h' hd apart old holding
  · rcases updatedSome hit with ⟨rfl,rfl⟩ | ⟨apart,old⟩
    · exact has newMsg r phases
    · exact locking.taken h' hd newMsg r old phases

theorem lockingQuiet (locking : Locking s) (h : Nat) (hd' : Handler) (counters : String → PeerID → Nat)
    (quiet : hd'.phase.late = false) : Locking {s with handlers := update s.handlers h (some hd'), counters := counters} := by
  refine lockingHandler locking h hd' counters (fun holding => ?_) (fun h' hd _ hit => locking.holder h' hd hit) ?_
  · cases phase : hd'.phase <;> simp_all [HandlerPhase.holding,HandlerPhase.late]
  · intro newMsg r phases
    rcases phases with phase | phase <;> simp [phase,HandlerPhase.late] at quiet

end

theorem Locking.noHolder (locking : Locking s) (free : s.resMu = none) (hit : s.handlers h = some hd) : hd.phase.holding ≠ true := by
  intro holding
  have holder := locking.holder h hd hit holding
  rw [free] at holder
  cases holder

theorem lockingTaken (locking : Locking s) (taken : Taken s e s') : Locking s' := by
  cases taken with
  | @create r asked id unused fresh =>
    refine ⟨locking.holder,fun h hd newMsg r' found phases => ?_⟩
    obtain ⟨q,held,has⟩ := locking.taken h hd newMsg r' found phases
    have apart : r' ≠ r := by
      rintro rfl
      rw [unused] at held
      cases held
    exact ⟨q,by simpa [apart] using held,has⟩
  | send held => exact lockingMoved locking held _ (by simp [Phase.has]) s.resCh
  | register free held => exact lockingMoved locking held _ (by simp [Phase.has]) _
  | timeout held | cancel held => exact lockingMoved locking held _ (by simp [Phase.has]) s.resCh
  | unregister free held left =>
    refine lockingMoved locking held _ (fun resMsg has => ?_) _
    rcases has with phase | phase
    · rw [phase] at left
      cases left
      exact .inr rfl
    · rw [phase] at left
      cases left
  | arrive unused => exact lockingQuiet locking _ _ s.counters rfl
  | check phase counters kind held before after => exact lockingQuiet locking _ _ counters after
  | unknown free held missing => exact lockingQuiet locking _ _ s.counters rfl
  | found free held channel =>
    exact lockingHandler locking _ _ s.counters (fun _ => rfl)
      (fun h' hd _ found holding => absurd holding (locking.noHolder free found)) (by simp)
  | @handover h now r peer newMsg id asked held wait =>
    have moved := lockingMoved locking wait (.received (Handler.response ⟨now,peer,.sending newMsg r⟩ newMsg))
      (by simp [Phase.has]) s.resCh
    refine lockingHandler moved h ⟨now,peer,.handed newMsg r⟩ s.counters (fun _ => locking.holder h _ held rfl)
      (fun h' hd _ found => locking.holder h' hd found) (fun newMsg' r' phases => ?_)
    obtain ⟨rfl,rfl⟩ : newMsg = newMsg' ∧ r = r' := by simpa using phases
    exact ⟨_,by rw [setRequesterAt,if_pos rfl],Or.inl rfl⟩
  | @unlock h now r peer newMsg held =>
    have mine := locking.holder h _ held rfl
    refine lockingHandler locking h ⟨now,peer,.delivered newMsg r⟩ s.counters (by simp [HandlerPhase.holding])
      (fun h' hd apart found holding => ?_) (fun newMsg' r' phases => ?_)
    · have holder := locking.holder h' hd found holding
      rw [mine] at holder
      exact absurd (some.inj holder).symm apart
    · obtain ⟨rfl,rfl⟩ : newMsg = newMsg' ∧ r = r' := by simpa using phases
      have given := locking.taken h ⟨now,peer,.handed newMsg r⟩ newMsg r held (.inl rfl)
      exact given
  | counts => exact ⟨locking.holder,locking.taken⟩

def Handing (s : State) (h r : Nat) : Prop :=
  ∃ hd q newMsg, s.handlers h = some hd ∧ hd.phase = .sending newMsg r ∧ s.requesters r = some q ∧ q.phase = .waiting

def Delivered (s : State) (h r : Nat) : Prop :=
  ∃ hd q newMsg, s.handlers h = some hd ∧ (hd.phase = .handed newMsg r ∨ hd.phase = .delivered newMsg r) ∧
    s.requesters r = some q ∧ q.phase.has (hd.response newMsg)

def Meets (s : State) (h r : Nat) : Prop :=
  ∃ hd q newMsg, s.handlers h = some hd ∧ hd.phase = .checked newMsg ∧ s.requesters r = some q ∧ q.id = newMsg.id ∧
    q.phase = .waiting

section
variable {s s' : State} {e : Step} {h r : Nat}

theorem notHandingHandler (held : s.handlers h = some hd) (other : ∀ newMsg, hd.phase ≠ .sending newMsg r) : ¬Handing s h r := by
  rintro ⟨hd',q,newMsg,held',phase,_⟩
  cases held.symm.trans held'
  exact other newMsg phase

theorem notHandingRequester (held : s.requesters r = some q) (other : q.phase ≠ .waiting) : ¬Handing s h r := by
  rintro ⟨hd,q',newMsg,_,_,held',phase⟩
  cases held.symm.trans held'
  exact other phase

theorem handingCongr (handlers : s'.handlers h = s.handlers h) (requesters : s'.requesters r = s.requesters r) :
    Handing s' h r ↔ Handing s h r := by
  unfold Handing
  rw [handlers,requesters]

theorem noHanding (locking : Locking s) (free : s.resMu = none) : ¬Handing s h r := by
  rintro ⟨hd,q,newMsg,held,phase,_⟩
  exact locking.noHolder free held (by rw [phase]; rfl)

section
variable (s : State) {r₀ q} (handlers : s'.handlers = s.handlers) (requesters : s'.requesters = Function.update s.requesters r₀ (some q))
include handlers requesters

theorem handingMoved (after : q.phase ≠ .waiting) : Handing s' h r ↔ Handing s h r ∧ r ≠ r₀ := by
  by_cases here : r = r₀
  · subst here
    have held : s'.requesters r = some q := by rw [requesters,update_self]
    exact iff_of_false (notHandingRequester held after) (·.2 rfl)
  · have same : s'.requesters r = s.requesters r := by rw [requesters,update_of_ne here]
    rw [handingCongr (congrFun handlers h) same]
    exact (and_iff_left here).symm

theorem handingElsewhere (before : ∀ q, s.requesters r₀ = some q → q.phase ≠ .waiting) (after : q.phase ≠ .waiting) :
    Handing s' h r ↔ Handing s h r := by
  rw [handingMoved s handlers requesters after]
  refine and_iff_left_of_imp ?_
  rintro ⟨_,q,_,_,_,held,waiting⟩ rfl
  exact before q held waiting

end

theorem handingQuiet (s : State) (requesters : s'.requesters = s.requesters) (handlers : s'.handlers = update s.handlers h₀ (some hd))
    (before : ∀ hd, s.handlers h₀ = some hd → ∀ newMsg, hd.phase ≠ .sending newMsg r)
    (after : ∀ newMsg, hd.phase ≠ .sending newMsg r) : Handing s' h r ↔ Handing s h r := by
  by_cases here : h = h₀
  · subst here
    have held : s'.handlers h = some hd := by rw [handlers,update_self]
    refine iff_of_false (notHandingHandler held after) ?_
    rintro ⟨hd',q,newMsg,held',phase,_⟩
    exact before hd' held' newMsg phase
  · have same : s'.handlers h = s.handlers h := by rw [handlers,update_of_ne here]
    exact handingCongr same (congrFun requesters r)

theorem handingFound (registry : Registry s) (locking : Locking s) (free : s.resMu = none)
    (held : s.handlers h₀ = some ⟨now,peer,.checked newMsg⟩) (channel : s.resCh newMsg.id = some r₀) :
    Handing {s.setHandler h₀ ⟨now,peer,.checked newMsg⟩ (.sending newMsg r₀) with resMu := some h₀} h r ↔
      (Handing s h r ∧ Step.lookup h₀ ≠ .timeout r ∧ Step.lookup h₀ ≠ .cancel r ∧ Step.lookup h₀ ≠ .handover h) ∨
        (Step.lookup h₀ = .lookup h ∧ Meets s h r) := by
  rw [or_iff_right (fun both => noHanding locking free both.1)]
  by_cases here : h = h₀
  · subst here
    rw [and_iff_right rfl]
    constructor
    · rintro ⟨hd,q,msg,hit,phase,waits,waiting⟩
      cases (handlerSelf s h ⟨now,peer,.checked newMsg⟩ (.sending newMsg r₀)).symm.trans hit
      cases phase
      obtain ⟨q',waits',name,_⟩ := (registry.registered newMsg.id r).mp channel
      cases waits.symm.trans waits'
      exact ⟨_,q,newMsg,held,rfl,waits,name,waiting⟩
    · rintro ⟨hd,q,msg,hit,phase,waits,name,waiting⟩
      cases held.symm.trans hit
      cases phase
      have own := (registry.registered newMsg.id r).mpr ⟨q,waits,name,by rw [waiting]; rfl⟩
      rw [channel] at own
      cases own
      exact ⟨_,q,newMsg,update_self ..,rfl,waits,waiting⟩
  · have same := @handingCongr s {s.setHandler h₀ ⟨now,peer,.checked newMsg⟩ (.sending newMsg r₀) with resMu := some h₀} h r
      (update_of_ne here ..) rfl
    exact iff_of_false (fun handing => noHanding locking free (same.mp handing)) (fun both => here (Step.lookup.inj both.1).symm)

theorem handingHandover {id} (locking : Locking s) (held : s.handlers h₀ = some ⟨now,peer,.sending newMsg r₀⟩) :
    Handing ((s.setHandler h₀ ⟨now,peer,.sending newMsg r₀⟩ (.handed newMsg r₀)).setRequester r₀ ⟨id,asked,.waiting⟩
      (.received resMsg)) h r ↔
      (Handing s h r ∧ Step.handover h₀ ≠ .timeout r ∧ Step.handover h₀ ≠ .cancel r ∧ Step.handover h₀ ≠ .handover h) ∨
        (Step.handover h₀ = .lookup h ∧ Meets s h r) := by
  have mine := locking.holder h₀ _ held rfl
  have only : ∀ hd, s.handlers h = some hd → hd.phase.holding = true → h = h₀ := by
    intro hd hit holding
    have holder := locking.holder h hd hit holding
    rw [mine] at holder
    exact (some.inj holder).symm
  refine iff_of_false ?_ ?_
  · rintro ⟨hd,q,msg,hit,phase,_⟩
    by_cases here : h = h₀
    · subst here
      cases (handlerSelf s h ⟨now,peer,.sending newMsg r₀⟩ (.handed newMsg r₀)).symm.trans hit
      cases phase
    · exact here (only hd ((update_of_ne here ..).symm.trans hit) (by rw [phase]; rfl))
  · rintro (⟨⟨hd,q,msg,hit,phase,_⟩,_,_,other⟩ | ⟨lookup,_⟩)
    · exact other (by rw [only hd hit (by rw [phase]; rfl)])
    · cases lookup

theorem handingTaken (registry : Registry s) (locking : Locking s) (taken : Taken s e s') :
    Handing s' h r ↔ (Handing s h r ∧ e ≠ .timeout r ∧ e ≠ .cancel r ∧ e ≠ .handover h) ∨ (e = .lookup h ∧ Meets s h r) := by
  cases taken with
  | create unused fresh => exact Iff.trans (handingElsewhere s rfl rfl (by simp [unused]) (by simp)) (by simp)
  | @send r₀ ok id asked held =>
    exact Iff.trans (handingElsewhere s rfl rfl (by simp [held]) (by cases ok <;> simp)) (by simp)
  | @register r₀ id asked free held =>
    refine iff_of_false ?_ ?_
    · rintro ⟨hd,q,newMsg,found,phase,_⟩
      exact locking.noHolder free found (by rw [phase]; rfl)
    rintro (⟨handing,_⟩ | ⟨lookup,_⟩)
    · exact noHanding locking free handing
    · cases lookup
  | @timeout r₀ id asked held | @cancel r₀ id asked held =>
    refine Iff.trans (handingMoved s rfl rfl (by simp)) ?_
    simp [eq_comm]
  | unregister free held left =>
    have before := (unregisteredPhase left).2
    exact Iff.trans (handingElsewhere s rfl rfl (by simpa [held] using before) (by simp)) (by simp)
  | @arrive h₀ now peer buf unused =>
    refine Iff.trans (handingQuiet s rfl rfl (fun hd held => ?_) (by simp)) (by simp)
    rw [unused] at held
    cases held
  | @check e h₀ hd phase counters kind held before after =>
    refine Iff.trans (handingQuiet s rfl rfl (fun hd' held' newMsg phases => ?_) (fun newMsg phases => ?_)) ?_
    · cases held.symm.trans held'
      rw [phases] at before
      cases before
    · have same : phase = .sending newMsg r := phases
      rw [same] at after
      cases after
    · rcases kind with rfl | rfl <;> simp
  | @unknown h₀ now peer newMsg free held missing =>
    refine Iff.trans (handingQuiet s rfl rfl (fun hd' held' newMsg' phases => ?_) (by simp)) ?_
    · cases held.symm.trans held'
      cases phases
    have apart : ¬(Step.lookup h₀ = .lookup h ∧ Meets s h r) := by
      rintro ⟨same,hd,q,msg,held',phases,waits,name,waiting⟩
      cases same
      cases held.symm.trans held'
      cases phases
      have channel := (registry.registered newMsg.id r).mpr ⟨q,waits,name,by rw [waiting]; rfl⟩
      rw [missing] at channel
      cases channel
    rw [or_iff_left apart]
    simp
  | @found h₀ now r₀ peer newMsg free held channel => exact handingFound registry locking free held channel
  | @handover h₀ now r₀ peer newMsg id asked held wait => exact handingHandover locking held
  | @unlock h₀ now r₀ peer newMsg held =>
    refine Iff.trans (handingQuiet s rfl rfl (fun hd' held' newMsg' phases => ?_) (by simp)) (by simp)
    cases held.symm.trans held'
    cases phases
  | counts counters kind => exact Iff.trans (@handingCongr s _ h r rfl rfl) (by cases e <;> simp_all [Step.counts])

def HandlerPhase.givenTo : HandlerPhase → Option Nat
  | .handed _ r | .delivered _ r => some r
  | _ => none

def State.givenTo (s : State) (h : Nat) : Option Nat := (s.handlers h).bind (fun hd => hd.phase.givenTo)

theorem givenPhase {phase : HandlerPhase} :
    phase.givenTo = some r ↔ ∃ newMsg, phase = .handed newMsg r ∨ phase = .delivered newMsg r := by
  cases phase <;> simp [HandlerPhase.givenTo]

theorem deliveredGiven (locking : Locking s) : Delivered s h r ↔ s.givenTo h = some r := by
  rw [State.givenTo,bind_eq_some_iff]
  constructor
  · rintro ⟨hd,q,newMsg,held,phases,_⟩
    exact ⟨hd,held,givenPhase.mpr ⟨newMsg,phases⟩⟩
  rintro ⟨hd,held,given⟩
  obtain ⟨newMsg,phases⟩ := givenPhase.mp given
  obtain ⟨q,waits,has⟩ := locking.taken h hd newMsg r held phases
  exact ⟨hd,q,newMsg,held,phases,waits,has⟩

theorem givenCongr (handlers : s'.handlers h = s.handlers h) : s'.givenTo h = s.givenTo h := by
  rw [State.givenTo,handlers]
  rfl

theorem givenSet (s : State) (handlers : s'.handlers = update s.handlers h₀ (some hd))
    (same : s.givenTo h₀ = hd.phase.givenTo) : s'.givenTo h = s.givenTo h := by
  by_cases here : h = h₀
  · subst here
    rw [State.givenTo,handlers,update_self,same]
    rfl
  · exact givenCongr (by rw [handlers,update_of_ne here])

theorem givenHeld (held : s.handlers h = some hd) : s.givenTo h = hd.phase.givenTo := by
  rw [State.givenTo,held]
  rfl

theorem earlyGiven {phase : HandlerPhase} (early : phase.early = true) : phase.givenTo = none := by
  cases phase <;> simp_all [HandlerPhase.early,HandlerPhase.givenTo]

theorem lateGiven {phase : HandlerPhase} (late : phase.late = false) : phase.givenTo = none := by
  cases phase <;> simp_all [HandlerPhase.late,HandlerPhase.givenTo]

theorem givenTaken (taken : Taken s e s') : s'.givenTo h = some r ↔ s.givenTo h = some r ∨ (e = .handover h ∧ Handing s h r) := by
  cases taken with
  | @handover h₀ now r₀ peer newMsg id asked held wait =>
    by_cases here : h = h₀
    · subst here
      have before : s.givenTo h = none := givenHeld held
      have after := givenHeld (handlerSelf s h ⟨now,peer,.sending newMsg r₀⟩ (.handed newMsg r₀))
      refine Iff.trans (iff_of_eq (congrArg (· = some r) after)) ?_
      rw [before,and_iff_right rfl,or_iff_right (by simp)]
      constructor
      · intro same
        cases same
        exact ⟨_,_,newMsg,held,rfl,wait,rfl⟩
      · rintro ⟨hd,q,msg,found,phase,_⟩
        cases held.symm.trans found
        cases phase
        rfl
    · rw [or_iff_left (fun both => here (Step.handover.inj both.1).symm)]
      exact iff_of_eq (congrArg (· = some r) (@givenCongr s _ h (update_of_ne here ..)))
  | arrive unused =>
    rw [givenSet s rfl (by rw [State.givenTo,unused]; rfl)]
    simp
  | check phase counters kind held before after =>
    rw [givenSet s rfl ((givenHeld held).trans ((earlyGiven before).trans (lateGiven after).symm))]
    rcases kind with rfl | rfl <;> simp
  | unknown free held missing | found free held channel | unlock held =>
    rw [givenSet s rfl (by rw [givenHeld held]; rfl)]
    simp
  | create | send | register | timeout | cancel | unregister => exact (or_iff_left (by simp)).symm
  | counts counters kind => exact (or_iff_left (by rintro ⟨rfl,_⟩; cases kind)).symm

theorem deliveredStays (taken : Taken s e s') (delivered : Delivered s h r) : e ≠ .timeout r ∧ e ≠ .cancel r := by
  obtain ⟨hd,q,newMsg,_,_,held,has⟩ := delivered
  have stopped : q.phase ≠ .waiting := by
    rcases has with phase | phase <;> simp [phase]
  constructor
  · rintro rfl
    cases taken with
    | timeout wait =>
      cases held.symm.trans wait
      exact stopped rfl
    | check _ _ kind => rcases kind with kind | kind <;> cases kind
    | counts _ kind => cases kind
  · rintro rfl
    cases taken with
    | cancel wait =>
      cases held.symm.trans wait
      exact stopped rfl
    | check _ _ kind => rcases kind with kind | kind <;> cases kind
    | counts _ kind => cases kind

theorem servedTaken (registry : Registry s) (locking : Locking s) (taken : Taken s e s') : Delivered s' h r ∨ Handing s' h r ↔
      ((Delivered s h r ∨ Handing s h r) ∧ e ≠ .timeout r ∧ e ≠ .cancel r) ∨ (e = .lookup h ∧ Meets s h r) := by
  have delivered : Delivered s' h r ↔ Delivered s h r ∨ (e = .handover h ∧ Handing s h r) := by
    rw [deliveredGiven (lockingTaken locking taken),deliveredGiven locking]
    exact givenTaken taken
  rw [delivered,handingTaken registry locking taken]
  constructor
  · rintro ((given | ⟨rfl,handing⟩) | (⟨handing,timeout,cancel,_⟩ | met))
    · exact .inl ⟨.inl given,deliveredStays taken given⟩
    · exact .inl ⟨.inr handing,by simp⟩
    · exact .inl ⟨.inr handing,timeout,cancel⟩
    · exact .inr met
  · rintro (⟨given | handing,timeout,cancel⟩ | met)
    · exact .inl (.inl given)
    · by_cases now : e = .handover h
      · exact .inl (.inr ⟨now,handing⟩)
      · exact .inr (.inl ⟨handing,timeout,cancel,now⟩)
    · exact .inr (.inr met)

end

/-- The handler looked up the ID while the requester waited, and the requester has not given up since. -/
def Timely (mp : MessageProtocol) (steps : List Step) (h r : Nat) : Prop :=
  ∃ before after s, steps = before ++ .lookup h :: after ∧ run (step mp) State.start before = some s ∧ Meets s h r ∧
    .timeout r ∉ after ∧ .cancel r ∉ after

theorem timelySnoc (ran : run (step mp) State.start past = some s) :
    Timely mp (past ++ [e]) h r ↔ (Timely mp past h r ∧ e ≠ .timeout r ∧ e ≠ .cancel r) ∨ (e = .lookup h ∧ Meets s h r) := by
  constructor
  · rintro ⟨before,after,s₀,split,ran₀,meets,timeout,cancel⟩
    rcases eq_nil_or_concat after with rfl | ⟨rest,last,rfl⟩
    · obtain ⟨rfl,same⟩ := append_inj' split rfl
      cases ran.symm.trans ran₀
      exact .inr ⟨cons.inj same |>.1,meets⟩
    · rw [concat_eq_append,← cons_append,← append_assoc] at split
      obtain ⟨rfl,same⟩ := append_inj' split rfl
      obtain rfl : e = last := (cons.inj same).1
      simp only [concat_eq_append,mem_append,mem_singleton,not_or] at timeout cancel
      exact .inl ⟨⟨before,rest,s₀,rfl,ran₀,meets,timeout.1,cancel.1⟩,Ne.symm timeout.2,Ne.symm cancel.2⟩
  · rintro (⟨⟨before,after,s₀,rfl,ran₀,meets,timeout,cancel⟩,notTimeout,notCancel⟩ | ⟨rfl,meets⟩)
    · refine ⟨before,after ++ [e],s₀,by simp,ran₀,meets,?_,?_⟩
      · simpa [timeout] using Ne.symm notTimeout
      · simpa [cancel] using Ne.symm notCancel
    · exact ⟨past,[],s,rfl,ran,meets,by simp,by simp⟩

structure Reached (mp : MessageProtocol) (steps : List Step) (s : State) : Prop where
  registry : Registry s
  locking : Locking s
  served : ∀ h r, Delivered s h r ∨ Handing s h r ↔ Timely mp steps h r

theorem reachedRun (ran : run (step mp) State.start steps = some s) : Reached mp steps s := by
  have first : Reached mp [] State.start := by
    refine ⟨registryStart,lockingStart,fun h r => iff_of_false ?_ ?_⟩
    · simp [Delivered,Handing,State.start]
    · rintro ⟨before,after,_,split,_⟩
      simp at split
  refine runHistory first (fun past s e s' ran reached ok => ?_) ran
  have taken := stepTaken ok
  refine ⟨registryTaken reached.registry taken,lockingTaken reached.locking taken,fun h r => ?_⟩
  rw [servedTaken reached.registry reached.locking taken,timelySnoc ran,reached.served h r]

theorem handingDelivers (locking : Locking s) (handing : Handing s h r) :
    ∃ s', step mp s (.handover h) = some s' ∧ Delivered s' h r := by
  have enabled : ∃ s', step mp s (.handover h) = some s' := by
    obtain ⟨⟨now,peer,phase⟩,⟨id,asked,status⟩,newMsg,held,rfl,waits,rfl⟩ := handing
    exact ⟨_,by simp only [step,held,waits]; rfl⟩
  obtain ⟨s',ok⟩ := enabled
  have taken := stepTaken ok
  refine ⟨s',ok,?_⟩
  rw [deliveredGiven (lockingTaken locking taken),givenTaken taken]
  exact .inr ⟨rfl,handing⟩

theorem responseDeliveredIff (mp : MessageProtocol) (steps : List Step) (s : State)
    (ran : run (step mp) State.start steps = some s) (h r : Nat) : (Delivered s h r ∨ Handing s h r ↔ Timely mp steps h r) ∧
      (Handing s h r → ∃ s', step mp s (.handover h) = some s' ∧ Delivered s' h r) :=
  ⟨(reachedRun ran).served h r,handingDelivers (reachedRun ran).locking⟩

def plainText : Normalizer := .plain

def sampleProtocol : MessageProtocol := ⟨plainText,["p"],fun _ => 100,fun _ _ => true⟩

def sampleBytes : Bytes := [10,1,49,18,1,112,26,1,5,34,0]

def timelySteps : List Step :=
  [.create 0 [1] "1",.send 0 true,.arrive 0 7 [1] sampleBytes,.check 0,.limit 0,.register 0,.lookup 0,.handover 0,.unlock 0,
    .unregister 0]

theorem responseDeliveredSample : ∃ s, run (step sampleProtocol) State.start timelySteps = some s ∧
    s.requesters 0 = some ⟨"1",[1],.returned (.ok ⟨7, [1], [5], none⟩)⟩ ∧ Timely sampleProtocol timelySteps 0 0 := by
  have ended : (run (step sampleProtocol) State.start timelySteps).map (fun s => (s.requesters 0, s.handlers 0)) =
      some (some ⟨"1",[1],.returned (.ok ⟨7,[1],[5],none⟩)⟩, some ⟨7,[1],.delivered ⟨"1","p",[5],""⟩ 0⟩) := by
    decide +kernel
  obtain ⟨s,ran,both⟩ := map_eq_some_iff.mp ended
  obtain ⟨requester,handler⟩ := Prod.mk.inj both
  have delivered : Delivered s 0 0 := ⟨_,_,_,handler,Or.inr rfl,requester,Or.inr rfl⟩
  exact ⟨s,ran,requester,(responseDeliveredIff sampleProtocol timelySteps s ran 0 0).1.mp (.inl delivered)⟩

theorem responseLost :
    (run (step sampleProtocol) State.start [.create 0 [1] "1", .send 0 true, .arrive 0 7 [1] sampleBytes, .check 0, .limit 0,
        .lookup 0, .register 0, .timeout 0, .unregister 0]).map (fun s => (s.requesters 0, s.handlers 0)) =
      some (some ⟨"1",[1],.returned (.error .errTimeout)⟩, some ⟨7, [1], .dropped (.unknownRequestID "1")⟩) ∧
    (run (step sampleProtocol) State.start [.create 0 [1] "1", .send 0 true, .register 0, .arrive 0 7 [1] sampleBytes, .check 0,
        .limit 0, .lookup 0, .timeout 0]).map (fun s => (s.requesters 0, s.handlers 0, s.resMu)) =
      some (some ⟨"1",[1],.timedOut⟩, some ⟨7, [1], .sending ⟨"1", "p", [5], ""⟩ 0⟩, some 0) := by
  decide +kernel

end LiskEngine.P2P
