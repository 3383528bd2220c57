import LiskEngine.BftHistory

/-! Every accepted header below the greatest height is counted. An active validator is a validator of
all parameters in force since it became active, and every height of the window has parameters. -/
namespace LiskEngine.Consensus
open Liskbft Contradiction Diffdb BFTVotes List Except

section
variable {c : BftParamsCache} {P : Nat → BFTParams} {generator : Bytes} {low : Nat} {infos : List BFTBlockHeader}
  (known : ∀ h ∈ infos.map (·.height), c.getParameters h = .ok (P h))
  (mem : ∀ h ∈ infos.map (·.height), low ≤ h → IsValidator (P h) generator)
include known

include mem in
theorem addPrecommitsDone (has : Bool) (active : List ActiveValidator) :
    ∃ r, addPrecommits c generator low has active infos = .ok r := by
  induction infos generalizing has active with
  | nil => exact ⟨_,rfl⟩
  | cons info rest ih =>
    have later := ih (fun h tail => known h (.tail _ tail)) (fun h tail => mem h (.tail _ tail))
    unfold addPrecommits
    split
    · exact ⟨_,rfl⟩
    rename_i reached
    have val := mem info.height (.head _) (by omega)
    rw [known info.height mem_cons_self]
    simp only [bind,Except.bind]
    split
    · obtain ⟨hit,eq⟩ := Option.isSome_iff_exists.mp val
      obtain ⟨r,done⟩ := later true (if has then active else setLargestHeightPrecommit generator info.height active)
      rw [eq]
      simp only [done]
      exact ⟨_,rfl⟩
    · obtain ⟨r,done⟩ := later has active
      simp only [done]
      exact ⟨_,rfl⟩

include mem in
theorem addPrevotesDone : ∃ r, addPrevotes c generator low infos = .ok r := by
  induction infos with
  | nil => exact ⟨_,rfl⟩
  | cons info rest ih =>
    obtain ⟨r,done⟩ := ih (fun h tail => known h (.tail _ tail)) (fun h tail => mem h (.tail _ tail))
    unfold addPrevotes
    split
    · exact ⟨_,rfl⟩
    rename_i reached
    obtain ⟨hit,eq⟩ := Option.isSome_iff_exists.mp (mem info.height (.head _) (by omega))
    rw [known info.height mem_cons_self]
    simp only [bind,Except.bind,eq,done]
    exact ⟨_,rfl⟩

theorem firstMeetingDone (meets : BFTParams → BFTBlockHeader → Bool) : ∃ r, firstMeeting c meets infos = .ok r := by
  induction infos with
  | nil => exact ⟨_,rfl⟩
  | cons info rest ih =>
    unfold firstMeeting
    rw [known info.height mem_cons_self]
    simp only [bind,Except.bind]
    split
    · exact ⟨_,rfl⟩
    · exact ih (fun h tail => known h (.tail _ tail))

omit known in
theorem votesDone (known : ∀ h ∈ windowHeights v, c.getParameters h = .ok (P h))
    (joined : ∀ a info, ActiveValidator.find v.activeValidatorsVoteInfo a = some info → ∀ h ∈ windowHeights v,
      info.minActiveHeight ≤ h → IsValidator (P h) a) : ∃ v', v.updatePrevotesPrecommits c = .ok v' := by
  unfold updatePrevotesPrecommits
  split
  · exact ⟨_,rfl⟩
  split
  · exact ⟨_,rfl⟩
  split
  · exact ⟨_,rfl⟩
  rename_i newInfo _ _ _ _ info hit
  have val := joined _ info hit
  let minPrecommitHeight := max info.minActiveHeight
    (max (u32 (getHeightNotPrevoted v.blockBFTInfos newInfo+1)) (u32 (info.largestHeightPrecommit+1)))
  let minPrevoteHeight := max (u32 (newInfo.maxHeightGenerated+1)) info.minActiveHeight
  have reachedPrecommit : ∀ h ∈ windowHeights v, minPrecommitHeight ≤ h → IsValidator (P h) newInfo.generatorAddress :=
    fun h inside reached => val h inside ((le_max_left _ _).trans reached)
  have reachedPrevote : ∀ h ∈ windowHeights v, minPrevoteHeight ≤ h → IsValidator (P h) newInfo.generatorAddress :=
    fun h inside reached => val h inside ((le_max_right _ _).trans reached)
  obtain ⟨⟨infos,active⟩,precommits⟩ := addPrecommitsDone known reachedPrecommit false v.activeValidatorsVoteInfo
  have heights : infos.map (·.height) = windowHeights v := by
    have same := congrArg (map BFTPartialBlockHeader.height) (addPrecommitsKeeps precommits).1
    rw [map_map,map_map] at same
    exact same
  rw [← heights] at known reachedPrevote
  obtain ⟨infos',prevotes⟩ := addPrevotesDone known reachedPrevote
  refine ⟨{v with blockBFTInfos := infos', activeValidatorsVoteInfo := active},?_⟩
  show bind (addPrecommits c _ minPrecommitHeight false _ _) _ = _
  rw [precommits]
  show bind (addPrevotes c _ minPrevoteHeight infos) _ = _
  rw [prevotes]
  rfl

end

section
variable {db : Database Nat BFTParams} (settled : Settled db bound) (within : bound ≤ start) (held : ∃ p, InForce db start p)
include settled within held

theorem listedDone (stop : Nat) : ∃ kv, (newBFTParamsCache db).listed start stop = .ok kv ∧
      (start ≤ stop → ∀ h, start ≤ h → ∃ e, cachedValue kv h = .ok e) := by
  obtain ⟨p,force⟩ := held
  have entry : ∀ (kv : List (Nat × BFTParams)) (e : Nat × BFTParams), e ∈ kv → e.1 = start →
      ∀ h, start ≤ h → ∃ e', cachedValue kv h = .ok e' := by
    intro kv e mem own h above
    unfold cachedValue
    cases hit : kv.find? (·.1 ≤ h) with
    | some e' => exact ⟨_,rfl⟩
    | none => exact absurd above (by simpa [own] using find?_eq_none.mp hit e mem)
  unfold BftParamsCache.listed
  split
  · rw [show (newBFTParamsCache db).paramsStore = db from rfl,(getBFTParamsInForce settled within).mpr force]
    exact ⟨_,rfl,fun _ => entry _ (start,p) (by simp) rfl⟩
  rename_i zero
  obtain ⟨es,_,mems,listed⟩ := Database.rangeAll db start stop true
  obtain ⟨k,floor⟩ := force
  have top := floor.high
  refine ⟨_,rfl,fun ordered => entry _ (k,p) ?_ (by simp only; omega)⟩
  show (k,p) ∈ (db.range start stop (-1) true).1
  rw [listed]
  exact mem_reverse.mpr ((mems k p).mpr ⟨by omega,by omega,floor.held⟩)

theorem cacheDone (ordered : start ≤ stop) (small : stop < maxUint32) : ∃ c, (newBFTParamsCache db).cache start stop = .ok c := by
  obtain ⟨kv,listed,each⟩ := listedDone settled within held stop
  have vs : ∀ h ∈ range' start (stop+1-start), ∃ e, cachedValue kv h = .ok e :=
    fun h inside => each ordered h (mem_range'_1.mp inside).1
  obtain ⟨data,filled⟩ : ∃ data, (range' start (stop+1 - start)).mapM (cachedValue kv) = .ok data := mapMPure vs
  unfold BftParamsCache.cache
  rw [listed]
  simp only [bind,Except.bind]
  rw [if_neg (by omega),filled]
  exact ⟨_,rfl⟩

theorem cacheOverflows (full : maxUint32 ≤ stop) : (newBFTParamsCache db).cache start stop = .error .bftParametersShouldAlwaysExist := by
  obtain ⟨kv,listed,_⟩ := listedDone settled within held stop
  unfold BftParamsCache.cache
  rw [listed]
  simp only [bind,Except.bind]
  rw [if_pos full]

end

def Joined (v : BFTVotes) (r : Record) : Prop :=
  ∀ a info, ActiveValidator.find v.activeValidatorsVoteInfo a = some info → info.minActiveHeight ≤ r.next ∧
    ∀ k, info.minActiveHeight ≤ k → k ≤ r.next → ∃ p, lastSet r.params k = some p ∧ IsValidator p a

structure Served (m : Module) (g : Nat) (v : BFTVotes) (r : Record) : Prop where
  batch : 0 < m.batchSize
  founded : ∃ p, (u32 (g + 1), p) ∈ r.params
  joined : Joined v r

section
variable {g : Nat} {called : Bool} {s s' : ChainState} {v : BFTVotes} {r : Record}

section
variable {m : Module} (follows : Follows g called s v r) (served : Served m g v r)
include follows served

theorem founded (inside : h ∈ windowHeights v ∨ h = r.next) : lowestNeeded v ≤ h ∧ h ≤ r.next ∧ ∃ p, lastSet r.params h = some p := by
  obtain ⟨p,set⟩ := served.founded
  have range : lowestNeeded v ≤ h ∧ h ≤ r.next := by
    rcases inside with old | rfl
    · obtain ⟨last,final⟩ : ∃ last, (windowHeights v).getLast? = some last := ⟨_,getLast?_eq_some_getLast (ne_nil_of_mem old)⟩
      refine ⟨?_,(windowBelow follows old).le⟩
      rw [lowestNeededHeights final]
      exact (min_le_left _ _).trans (lastLeast follows.descending final old)
    · exact ⟨lowestLeNext follows,le_rfl⟩
  refine ⟨range.1,range.2,lastSetSome set ?_⟩
  cases began : r.started with
  | true => exact (follows.started began).2.trans range.1
  | false =>
    obtain ⟨window,tip,_⟩ := follows.waiting began
    rcases inside with old | rfl
    · rw [window] at old
      cases old
    · rw [Record.next,tip]

theorem windowFounded (height : n.height = r.next) : ∃ room, m.maxLengthBlock = room+1 ∧ ∃ last : BFTBlockHeader,
      (newBlockBFTInfo n::v.blockBFTInfos.take room).getLast? = some last ∧ lowestNeeded v ≤ last.height ∧
        last.height ≤ n.height ∧ (∃ p, InForce s.store.params last.height p) ∧
      ∀ h ∈ (newBlockBFTInfo n::v.blockBFTInfos.take room).map (·.height), last.height ≤ h ∧ h ≤ n.height ∧ lowestNeeded v ≤ h := by
  obtain ⟨room,len⟩ : ∃ room, m.maxLengthBlock = room+1 :=
    ⟨3*m.batchSize-1,by have := served.batch; unfold Module.maxLengthBlock; omega⟩
  have heights : (newBlockBFTInfo n::v.blockBFTInfos.take room).map (·.height) = r.next::(windowHeights v).take room := by
    rw [map_cons,map_take,← height]
    rfl
  have inside : ∀ h ∈ r.next::(windowHeights v).take room, h ∈ windowHeights v ∨ h = r.next := by
    intro h mem
    rcases mem_cons.mp mem with rfl | old
    · exact .inr rfl
    · exact .inl (mem_of_mem_take old)
  have order : (r.next::(windowHeights v).take room).Pairwise (fun a b => b < a) :=
    pairwise_cons.mpr ⟨fun h old => windowBelow follows (mem_of_mem_take old), follows.descending.sublist (take_sublist _ _)⟩
  obtain ⟨last,final⟩ : ∃ last, (newBlockBFTInfo n::v.blockBFTInfos.take room).getLast? = some last := ⟨_,getLast?_cons⟩
  have lastHeight : (r.next::(windowHeights v).take room).getLast? = some last.height := by
    rw [← heights,getLast?_map,final]
    rfl
  obtain ⟨above,below,p,set⟩ := founded follows served (inside _ (mem_of_getLast? lastHeight))
  refine ⟨room,len,last,final,above,height ▸ below,⟨p,(follows.params.agrees _ above p).mpr set⟩,?_⟩
  rw [heights,height]
  intro h mem
  obtain ⟨low,high,_⟩ := founded follows served (inside h mem)
  exact ⟨lastLeast order lastHeight mem,high,low⟩

theorem appliedBelowMax (height : n.height = r.next) (small : n.height < maxUint32) :
    ∃ store', m.beforeTransactionsExecute n s.store = .ok store' := by
  obtain ⟨room,len,last,final,above,below,held,window⟩ := windowFounded follows served height
  obtain ⟨c,cached⟩ := cacheDone follows.params.settled above held below small
  let v1 : BFTVotes := {v with blockBFTInfos := newBlockBFTInfo n::v.blockBFTInfos.take room}
  let P : Nat → BFTParams := fun h => (lastSet r.params h).getD default
  have known : ∀ h ∈ windowHeights v1, c.getParameters h = .ok (P h) := by
    intro h mem
    obtain ⟨low,high,needed⟩ := window h mem
    obtain ⟨p,read,force⟩ := (cacheSpec follows.params.settled above cached).2 h low high
    rw [read,show P h = p by simp only [P,(follows.params.agrees h needed p).mp force,Option.getD_some]]
  have joined : ∀ a info, ActiveValidator.find v1.activeValidatorsVoteInfo a = some info →
      ∀ h ∈ windowHeights v1, info.minActiveHeight ≤ h → IsValidator (P h) a := by
    intro a info hit h mem active
    obtain ⟨p,set,val⟩ := (served.joined a info hit).2 h active (height ▸ (window h mem).2.1)
    simpa only [P,set,Option.getD_some] using val
  obtain ⟨v2,voted⟩ := votesDone known joined
  have known2 : ∀ h ∈ windowHeights v2, c.getParameters h = .ok (P h) := by
    rw [windowHeightsOf,(votedHeaders voted).1,← windowHeightsOf]
    exact known
  obtain ⟨prevoted,first⟩ := firstMeetingDone known2 meetsPrevote
  obtain ⟨precommitted,second⟩ := firstMeetingDone known2 meetsPrecommit
  unfold Module.beforeTransactionsExecute
  rw [getVotesOk.mpr follows.votes]
  simp only [bind,Except.bind,len,insertBlockBFTInfo,final,Option.map_some,Option.getD_some,head?_cons]
  rw [show (newBlockBFTInfo n).height = n.height from rfl,cached]
  simp only
  rw [voted]
  simp only [updateMaxHeightPrevoted,updateMaxHeightPrecommitted,bind,Except.bind,first,second]
  exact ⟨_,rfl⟩

theorem failsAtMax (height : n.height = r.next) (full : maxUint32 ≤ n.height) :
    m.beforeTransactionsExecute n s.store = .error .bftParametersShouldAlwaysExist := by
  obtain ⟨room,len,last,final,above,below,held,window⟩ := windowFounded follows served height
  have failed := cacheOverflows follows.params.settled above held full
  unfold Module.beforeTransactionsExecute
  rw [getVotesOk.mpr follows.votes]
  simp only [bind,Except.bind,len,insertBlockBFTInfo,final,Option.map_some,Option.getD_some,head?_cons]
  rw [show (newBlockBFTInfo n).height = n.height from rfl,failed]

end

theorem joinedBlock (follows : Follows g called s v r) (joined : Joined v r) (height : n.height = r.next)
    (small : n.height < maxUint32) (kept : MinKept v.activeValidatorsVoteInfo v'.activeValidatorsVoteInfo) :
    Joined v' (r.after m (.block now n)) := by
  have next : (r.after m (.block now n)).next = r.next+1 := by
    show u32 (n.height+1) = r.next+1
    rw [u32Small (by unfold maxUint32 at small; omega),height]
  intro a info' hit
  obtain ⟨info,original,same⟩ := kept a info' hit
  obtain ⟨low,mem⟩ := joined a info original
  rw [next,same]
  refine ⟨by omega,fun k active high => ?_⟩
  rcases lt_or_ge r.next k with new | old
  · show ∃ p, lastSet r.params k = some p ∧ IsValidator p a
    rw [lastSetLater follows.recent new.le]
    exact mem r.next low le_rfl
  · exact mem k active old

theorem validatorListed {m} {call : ParamsCall} {a} (listed : ∃ w ∈ BFTValidator.sort call.validators, w.address = a) :
    IsValidator (call.params m) a := by
  obtain ⟨w,mem,own⟩ := listed
  exact find?_isSome.mpr ⟨w,mem,by simpa using own⟩

theorem joinedChanged (follows : Follows g called s v r) (joined : Joined v r) (m : Module) (call : ParamsCall) :
    Joined (votesWithValidators v call.validators)
      {r with calls := (r.next,call)::r.calls, params := (r.next,call.params m)::r.params} := by
  intro a info hit
  have place : u32 (API.currentHeight v+1) = r.next := by rw [follows.tip]; rfl
  obtain ⟨listed,origin⟩ := findNextActive hit
  have atNext : ∃ p, lastSet ((r.next,call.params m)::r.params) r.next = some p ∧ IsValidator p a :=
    ⟨_,lastSetFrom le_rfl,validatorListed listed⟩
  rw [place] at origin
  have low : info.minActiveHeight ≤ r.next := by
    rcases origin with old | rfl
    · exact (joined a info old).1
    · exact le_rfl
  refine ⟨low,fun k active high => ?_⟩
  rcases lt_or_eq_of_le (show k ≤ r.next from high) with early | rfl
  · rcases origin with old | rfl
    · obtain ⟨p,set,val⟩ := (joined a info old).2 k active early.le
      exact ⟨p,(lastSetAbove early).trans set,val⟩
    · exact absurd active (by simp only; omega)
  · exact atNext

theorem batchPositive {m store store'} {call : ParamsCall}
    (ok : API.setBFTParameters m store call.precommitThreshold call.certificateThreshold call.validators = .ok store')
    (votes : store.votes.view () = some v) : 0 < m.batchSize := by
  obtain ⟨⟨pos,bounded⟩,_,_⟩ := setParametersOk ok votes
  unfold API.setBFTParameters at ok
  split at ok
  · cases ok
  rename_i fits
  cases vals : call.validators with
  | nil =>
    rw [vals] at pos bounded
    have absent : u64 (WeightedQuorum.total BFTValidator.bftWeight []) = 0 := rfl
    omega
  | cons w rest =>
    rw [vals,length_cons] at fits
    omega

theorem servedStep (next : Follows g called s v r) (served : Served c.liskBFT g v r)
    (ok : s.apply c.liskBFT (verifyBlockAccepts c) e = some s') :
    ∃ called' v' r', Follows g called' s' v' r' ∧ Served c.liskBFT g v' r' := by
  cases e with
  | block now n =>
    obtain ⟨v',next'⟩ := followsBlock next ok
    obtain ⟨acc,store',ran,rfl⟩ := applyBlock ok
    obtain ⟨v'',room,moved,_,kept⟩ := beforeMoves ran next.votes
    have same : v'' = v' := by
      have votes := next'.votes
      rw [moved.result] at votes
      simpa [Database.setView next.votesCoherent] using votes
    subst same
    exact ⟨false,v'',_,next',served.batch,served.founded,
      joinedBlock next served.joined (acceptedHeight next acc) moved.small kept⟩
  | setBFTParameters pre cert vals =>
    obtain ⟨store',changed,rfl⟩ := applyParams ⟨pre,cert,vals⟩ ok
    rcases setParamsResult _ changed next.votes with ⟨_,rfl⟩ | ⟨_,rfl⟩
    · exact ⟨called,v,r,next,served⟩
    · refine ⟨true,_,_,followsChanged next c.liskBFT _,served.batch,?_,joinedChanged next served.joined _ _⟩
      exact served.founded.imp (fun p set => mem_cons_of_mem _ set)
  | setGeneratorKeys gens =>
    exact ⟨called,v,_,followsKeys next ok,served.batch,served.founded,served.joined⟩
  | commit =>
    cases ok
    exact ⟨called,v,r,followsCommit next,served⟩

theorem servedRun (next : Follows g called s v r) (served : Served c.liskBFT g v r)
    (run : s.run c.liskBFT (verifyBlockAccepts c) events = some s') :
    ∃ called' v' r', Follows g called' s' v' r' ∧ Served c.liskBFT g v' r' := by
  have step : ∀ s e s', True → (∃ called v r, Follows g called s v r ∧ Served c.liskBFT g v r) →
      s.apply c.liskBFT (verifyBlockAccepts c) e = some s' →
      ∃ called v r, Follows g called s' v r ∧ Served c.liskBFT g v r := by
    intro s e s' _ ⟨called,v,r,next,served⟩ ok
    exact servedStep next served ok
  exact runInduction _ step (fun _ _ => trivial) ⟨called,v,r,next,served⟩ run

theorem servedFirst (sets : genesisSets false true (events ++ [.block now n]) = true)
    (follows : Follows g called s v r) (unset : r.params = []) (idle : r.started = false) (joined : Joined v r)
    (run : s.run c.liskBFT (verifyBlockAccepts c) events = some s') :
    ∃ called' v' r', Follows g called' s' v' r' ∧ Served c.liskBFT g v' r' := by
  induction events generalizing s v r with
  | nil => cases sets
  | cons e rest ih =>
    obtain ⟨next,applied,later⟩ := runCons run
    cases e with
    | block now' n' => cases sets
    | setBFTParameters pre cert vals =>
      let call : ParamsCall := ⟨pre,cert,vals⟩
      obtain ⟨store',changed,rfl⟩ := applyParams call applied
      rcases setParamsResult call changed follows.votes with ⟨same,rfl⟩ | ⟨_,rfl⟩
      · have recorded := (inForceShape follows call).mp same
        rw [unset] at recorded
        cases recorded
      · refine servedRun (followsChanged follows c.liskBFT call) ⟨batchPositive changed follows.votes,?_,
          joinedChanged follows joined _ _⟩ later
        refine ⟨call.params c.liskBFT,?_⟩
        rw [← (follows.waiting idle).2.1]
        exact .head _
    | setGeneratorKeys gens => exact ih sets (followsKeys follows applied) unset idle joined later
    | commit =>
      cases applied
      exact ih sets (followsCommit follows) unset idle joined later

end

theorem voteCountingIff (c : Engine) (genesis : BlockHeader) (uint32 : genesis.height ≤ maxUint32) (events : List Event)
    (s : ChainState) (now : Nat) (n : BlockHeader) (sets : genesisSets false true (events ++ [.block now n]) = true)
    (run : (genesisState genesis).run c.liskBFT (verifyBlockAccepts c) events = some s)
    (accepted : verifyBlockAccepts c now s n = true) :
    ((∃ store', c.liskBFT.beforeTransactionsExecute n s.store = .ok store') ↔ n.height < maxUint32) ∧
      ∀ address height, c.liskBFT.beforeTransactionsExecute n s.store ≠ .error (.validatorNotInParameters address height) := by
  have nobody : Joined ⟨genesis.height,genesis.height,genesis.height,[],[]⟩ (Record.start genesis) := by
    intro a info found
    cases found
  obtain ⟨called,v,r,follows,served⟩ := servedFirst sets (genesisFollows genesis uint32) rfl rfl nobody run
  have height := acceptedHeight follows accepted
  rcases lt_or_ge n.height maxUint32 with below | full
  · obtain ⟨store',ok⟩ := appliedBelowMax follows served height below
    exact ⟨iff_of_true ⟨store',ok⟩ below,fun _ _ failed => by rw [ok] at failed; cases failed⟩
  have failed := failsAtMax follows served height full
  refine ⟨iff_of_false ?_ (by omega),fun _ _ other => by rw [failed] at other; cases other⟩
  rintro ⟨store',ok⟩
  rw [failed] at ok
  cases ok

def sampleKeys : List Event := [.setBFTParameters 1 1 [sampleValidator 1],.setGeneratorKeys [⟨[1],[]⟩],.commit]

def countedAfter (genesis : Nat) : Option (Bool × Except BftError Unit) :=
  let n := {sampleHeader 1 (genesis + 1) 10 0 1 genesis genesis with aggregateCommit := ⟨genesis,[],[]⟩}
  ((genesisState (sampleHeader 0 genesis 0 0 0 0 0)).run sampleEngine.liskBFT (verifyBlockAccepts sampleEngine)
    sampleKeys).map (fun s => (verifyBlockAccepts sampleEngine 100 s n,
      (sampleEngine.liskBFT.beforeTransactionsExecute n s.store).map (fun _ => ())))

theorem voteCountingSample : ∃ s, (genesisState (sampleHeader 0 0 0 0 0 0 0)).run sampleEngine.liskBFT
      (verifyBlockAccepts sampleEngine) sampleKeys = some s ∧
    verifyBlockAccepts sampleEngine 100 s (sampleHeader 1 1 10 0 1 0 0) = true ∧
    ∃ store', sampleEngine.liskBFT.beforeTransactionsExecute (sampleHeader 1 1 10 0 1 0 0) s.store = .ok store' := by
  have runs : ((genesisState (sampleHeader 0 0 0 0 0 0 0)).run sampleEngine.liskBFT (verifyBlockAccepts sampleEngine)
      sampleKeys).map (fun s => verifyBlockAccepts sampleEngine 100 s (sampleHeader 1 1 10 0 1 0 0)) = some true := by
    decide +kernel
  obtain ⟨s,run,accepted⟩ := Option.map_eq_some_iff.mp runs
  exact ⟨s,run,accepted,
    (voteCountingIff sampleEngine _ (by decide) sampleKeys s 100 _ (by decide) run accepted).1.mpr (by decide)⟩

theorem greatestHeightFails : countedAfter 4294967293 = some (true, .ok ()) ∧
    countedAfter 4294967294 = some (true, .error .bftParametersShouldAlwaysExist) := by
  decide +kernel

end LiskEngine.Consensus
