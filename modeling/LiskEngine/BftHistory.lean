import LiskEngine.BftReachable
import LiskEngine.HeightHistory

/-! BFT parameters and generator keys of the heights that are still needed. -/
namespace LiskEngine.Consensus
open Liskbft Contradiction Diffdb BFTVotes List Bool
open Nat (le_succ zero_le)

structure ParamsCall where
  precommitThreshold : Nat
  certificateThreshold : Nat
  validators : List BFTValidator

abbrev ParamsShape := Nat × Nat × List (Bytes × Nat)

/-- What a change is recognised by: the BLS keys of the validators do not count. -/
def paramsShape (p : BFTParams) : ParamsShape :=
  (p.precommitThreshold, p.certificateThreshold, p.validators.map (fun v => (v.address, v.bftWeight)))

namespace ParamsCall

def params (m : Module) (call : ParamsCall) : BFTParams where
  prevoteThreshold := u64 (u64 (WeightedQuorum.total BFTValidator.bftWeight call.validators) * 2) / 3 + 1
  precommitThreshold := call.precommitThreshold
  certificateThreshold := call.certificateThreshold
  validators := BFTValidator.sort call.validators
  validatorsHash := m.computeValidatorsHash (BFTValidator.sort call.validators) call.certificateThreshold

def shape (call : ParamsCall) : ParamsShape :=
  (call.precommitThreshold, call.certificateThreshold,
    (BFTValidator.sort call.validators).map (fun v => (v.address, v.bftWeight)))

end ParamsCall

/-- The calls of a run with the heights they hold from. A parameter change takes effect unless it
asks for what is in force at the tip. -/
structure Record where
  tip : Nat
  started : Bool
  calls : List (Nat × ParamsCall)
  params : List (Nat × BFTParams)
  keys : List (Nat × List Generator)

namespace Record

def next (r : Record) : Nat := u32 (r.tip + 1)

def after (m : Module) (r : Record) : Event → Record
  | .block _ header => {r with tip := header.height, started := true}
  | .setBFTParameters precommitThreshold certificateThreshold validators =>
    let call : ParamsCall := ⟨precommitThreshold,certificateThreshold,validators⟩
    {r with
      calls := (r.next, call) :: r.calls
      params := if (lastSet r.params r.tip).map paramsShape = some call.shape then r.params
        else (r.next, call.params m) :: r.params}
  | .setGeneratorKeys generators => {r with keys := (r.next, generators) :: r.keys}
  | .commit => r

def start (genesis : BlockHeader) : Record := ⟨genesis.height,false,[],[],[]⟩

def run (m : Module) (genesis : BlockHeader) (events : List Event) : Record := events.foldl (·.after m) (start genesis)

end Record

theorem unchangedIff (cur : Except BftError BFTParams) (call : ParamsCall) :
    API.unchangedParams cur call.precommitThreshold call.certificateThreshold (BFTValidator.sort call.validators) =
      true ↔ ∃ p, cur = .ok p ∧ paramsShape p = call.shape := by
  unfold API.unchangedParams
  cases cur with
  | error e => simp
  | ok p =>
    simp only [and_eq_true,BFTValidator.equal,beq_iff_eq,Except.ok.injEq,exists_eq_left',paramsShape,
      ParamsCall.shape,Prod.mk.injEq]
    tauto

theorem setParamsResult (call : ParamsCall)
    (ok : API.setBFTParameters m store call.precommitThreshold call.certificateThreshold call.validators = .ok store')
    (votes : store.votes.view () = some v) :
    ((∃ p, getBFTParams store.params (API.currentHeight v) = .ok p ∧ paramsShape p = call.shape) ∧ store' = store) ∨
      (¬(∃ p, getBFTParams store.params (API.currentHeight v) = .ok p ∧ paramsShape p = call.shape) ∧
        store' = ⟨store.votes.set () (votesWithValidators v call.validators),
          store.params.set (u32 (API.currentHeight v+1)) (call.params m),store.keys⟩) := by
  rw [← unchangedIff]
  exact (setParametersOk ok votes).2.2

def lowestNeeded (v : BFTVotes) : Nat :=
  match v.blockBFTInfos.getLast? with
  | none => 0
  | some oldest => min oldest.height (u32 (v.maxHeightCertified + 1))

def windowHeights (v : BFTVotes) : List Nat := v.blockBFTInfos.map (·.height)

def windowHeaders (v : BFTVotes) : List BFTPartialBlockHeader := v.blockBFTInfos.map BFTBlockHeader.partialHeader

theorem windowHeightsOf (v : BFTVotes) : windowHeights v = (windowHeaders v).map (·.height) := by
  rw [windowHeights,windowHeaders,map_map]
  rfl

theorem lowestEmpty (empty : windowHeights v = []) : lowestNeeded v = 0 := by
  rw [lowestNeeded,show v.blockBFTInfos = [] by simpa [windowHeights] using empty]
  rfl

theorem lowestNeededHeights (final : (windowHeights v).getLast? = some last) :
    lowestNeeded v = min last (u32 (v.maxHeightCertified+1)) := by
  unfold windowHeights at final
  rw [getLast?_map] at final
  obtain ⟨oldest,hit,rfl⟩ := Option.map_eq_some_iff.mp final
  rw [lowestNeeded,hit]

section
variable {c : BftParamsCache} {generator : Bytes} {low : Nat}

def MinKept (active active' : List ActiveValidator) : Prop :=
  ∀ a info', ActiveValidator.find active' a = some info' →
    ∃ info, ActiveValidator.find active a = some info ∧ info'.minActiveHeight = info.minActiveHeight

theorem minKeptRefl (active : List ActiveValidator) : MinKept active active := fun _ info' hit => ⟨info',hit,rfl⟩

theorem setLargestKept (generator : Bytes) (height : Nat) (active : List ActiveValidator) :
    MinKept active (setLargestHeightPrecommit generator height active) := by
  intro a info' hit
  rw [findSetLargest] at hit
  split at hit
  · obtain ⟨info,original,rfl⟩ := Option.map_eq_some_iff.mp hit
    exact ⟨info,original,rfl⟩
  · exact ⟨info',hit,rfl⟩

theorem addPrecommitsKeeps (ok : addPrecommits c generator low hasPrecommitted active infos = .ok r) :
    r.1.map BFTBlockHeader.partialHeader = infos.map BFTBlockHeader.partialHeader ∧ MinKept active r.2 := by
  induction infos generalizing hasPrecommitted active r with
  | nil => cases ok; exact ⟨rfl,minKeptRefl _⟩
  | cons info rest ih =>
    unfold addPrecommits at ok
    split at ok
    · cases ok; exact ⟨rfl,minKeptRefl _⟩
    obtain ⟨params,_,ok⟩ := bindOk ok
    split at ok
    · split at ok
      · cases ok
      obtain ⟨next,added,ok⟩ := bindOk ok
      cases ok
      obtain ⟨headers,kept⟩ := ih added
      refine ⟨congrArg (cons _) headers,fun a info' hit => ?_⟩
      obtain ⟨moved,later,same⟩ := kept a info' hit
      split at later
      · exact ⟨moved,later,same⟩
      · obtain ⟨first,original,before⟩ := setLargestKept _ _ _ a moved later
        exact ⟨first,original,same.trans before⟩
    · obtain ⟨next,added,ok⟩ := bindOk ok
      cases ok
      obtain ⟨headers,kept⟩ := ih added
      exact ⟨congrArg (cons _) headers,kept⟩

theorem addPrevotesHeaders (ok : addPrevotes c generator low infos = .ok r) :
    r.map BFTBlockHeader.partialHeader = infos.map BFTBlockHeader.partialHeader := by
  induction infos generalizing r with
  | nil => cases ok; rfl
  | cons info rest ih =>
    unfold addPrevotes at ok
    split at ok
    · cases ok; rfl
    obtain ⟨params,_,ok⟩ := bindOk ok
    split at ok
    · cases ok
    obtain ⟨next,added,ok⟩ := bindOk ok
    cases ok
    exact congrArg (cons _) (ih added)

theorem votedHeaders (ok : v.updatePrevotesPrecommits c = .ok v') :
    windowHeaders v' = windowHeaders v ∧ v'.maxHeightPrecommited = v.maxHeightPrecommited ∧
      MinKept v.activeValidatorsVoteInfo v'.activeValidatorsVoteInfo := by
  unfold updatePrevotesPrecommits at ok
  split at ok
  · cases ok; exact ⟨rfl,rfl,minKeptRefl _⟩
  split at ok
  · cases ok; exact ⟨rfl,rfl,minKeptRefl _⟩
  split at ok
  · cases ok; exact ⟨rfl,rfl,minKeptRefl _⟩
  obtain ⟨⟨infos,active⟩,precommits,ok⟩ := bindOk ok
  obtain ⟨infos',prevotes,ok⟩ := bindOk ok
  cases ok
  obtain ⟨headers,kept⟩ := addPrecommitsKeeps precommits
  exact ⟨(addPrevotesHeaders prevotes).trans headers,rfl,kept⟩

theorem firstMeetingListed (ok : firstMeeting c meets infos = .ok (some height)) : height ∈ infos.map (·.height) := by
  induction infos with
  | nil => cases ok
  | cons info rest ih =>
    obtain ⟨params,_,ok⟩ := bindOk ok
    split at ok
    · cases ok
      simp
    · exact .tail _ (ih ok)

end

theorem headersUpdated (voted : v1.updatePrevotesPrecommits c = .ok v2)
    (prevoted : v2.updateMaxHeightPrevoted c = .ok v3) (precommited : v3.updateMaxHeightPrecommitted c = .ok v4) :
    windowHeaders (v4.updateMaxHeightCertified n) = windowHeaders v1 ∧
      ((v4.updateMaxHeightCertified n).maxHeightPrecommited = v1.maxHeightPrecommited ∨
        (v4.updateMaxHeightCertified n).maxHeightPrecommited ∈ windowHeights v1) ∧
      MinKept v1.activeValidatorsVoteInfo (v4.updateMaxHeightCertified n).activeValidatorsVoteInfo := by
  obtain ⟨headers,before,kept⟩ := votedHeaders voted
  obtain ⟨_,_,prevotedEq⟩ := bindOk prevoted
  cases prevotedEq
  obtain ⟨hit,first,precommitedEq⟩ := bindOk precommited
  cases precommitedEq
  have met : hit.getD v2.maxHeightPrecommited = v1.maxHeightPrecommited ∨
      hit.getD v2.maxHeightPrecommited ∈ windowHeights v1 := by
    cases hit with
    | none => exact .inl before
    | some height =>
      rw [windowHeightsOf,← headers,← windowHeightsOf]
      exact .inr (firstMeetingListed first)
  unfold updateMaxHeightCertified
  split <;> exact ⟨headers,met,kept⟩

theorem cacheSmall {c c' : BftParamsCache} {start stop} (ok : c.cache start stop = .ok c') : stop < maxUint32 := by
  obtain ⟨_,_,ok⟩ := bindOk ok
  split at ok
  · cases ok
  · omega

structure Moved (n : BlockHeader) (store store' : ConsensusStore) (v v' : BFTVotes) (room : Nat) : Prop where
  heights : windowHeights v' = n.height :: (windowHeights v).take room
  small : n.height < maxUint32
  precommited : v'.maxHeightPrecommited = v.maxHeightPrecommited ∨ v'.maxHeightPrecommited ∈ windowHeights v'
  certified : v'.maxHeightCertified =
    if n.aggregateCommit.empty then v.maxHeightCertified else n.aggregateCommit.height
  result : store' = ⟨store.votes.set () v',deleteBelow store.params (lowestNeeded v'),
    deleteBelow store.keys (lowestNeeded v')⟩

theorem beforeMoves {m : Module} {n store store' v} (ok : m.beforeTransactionsExecute n store = .ok store')
    (votes : store.votes.view () = some v) : ∃ v' room, Moved n store store' v v' room ∧
      windowHeaders v' = newBFTBlockHeader n::(windowHeaders v).take room ∧
      MinKept v.activeValidatorsVoteInfo v'.activeValidatorsVoteInfo := by
  obtain ⟨room,last,c,v2,v3,v4,final,cached,voted,prevoted,precommited,rfl⟩ := beforeComputed ok votes
  have certified := certifiedUpdated (n := n) voted prevoted precommited
  obtain ⟨headers,met,kept⟩ := headersUpdated (n := n) voted prevoted precommited
  have inserted : windowHeaders (v4.updateMaxHeightCertified n) = newBFTBlockHeader n::(windowHeaders v).take room := by
    rw [headers]
    simp [windowHeaders,newBlockBFTInfo,BFTBlockHeader.partialHeader,newBFTBlockHeader]
  have heights : windowHeights (v4.updateMaxHeightCertified n) = n.height::(windowHeights v).take room := by
    rw [windowHeightsOf,inserted,windowHeightsOf,map_cons,map_take]
    rfl
  rw [windowHeightsOf,← headers,← windowHeightsOf] at met
  refine ⟨v4.updateMaxHeightCertified n,room,⟨heights,cacheSmall cached,met,certified,?_⟩,inserted,kept⟩
  have oldest : (windowHeights (v4.updateMaxHeightCertified n)).getLast? = some last.height := by
    rw [windowHeightsOf,headers,← windowHeightsOf,windowHeights,getLast?_map]
    simp only [final,Option.map_some]
  rw [lowestNeededHeights oldest]

/-- The vote state and the two stores of a run beside the record of its calls. `called` is whether
the parameters were asked to change since the last block. -/
structure Follows (g : Nat) (called : Bool) (s : ChainState) (v : BFTVotes) (r : Record) : Prop where
  votesCoherent : Database.Coherent s.store.votes
  votes : s.store.votes.view () = some v
  blocks : s.blocks.head?.map (·.height) = some r.tip
  tip : API.currentHeight v = r.tip
  descending : (windowHeights v).Pairwise (fun a b => b < a)
  small : ∀ h ∈ windowHeights v, h < maxUint32
  certified : v.maxHeightCertified ≤ maxUint32
  precommited : v.maxHeightPrecommited ≤ maxUint32
  room : v.maxHeightPrecommited < maxUint32 ∨ v.maxHeightCertified = maxUint32
  started : r.started = true → windowHeights v ≠ [] ∧ u32 (g + 1) ≤ lowestNeeded v
  waiting : r.started = false → windowHeights v = [] ∧ r.tip = g ∧ v.maxHeightCertified = g
  params : Tracks s.store.params r.params (lowestNeeded v) r.next
  keys : Tracks s.store.keys r.keys (lowestNeeded v) r.next
  recent : ∀ e ∈ r.params, e.1 ≤ r.next
  fresh : called = false → ∀ e ∈ r.params, e.1 ≤ r.tip ∧ r.tip < maxUint32
  matched : ∀ k, (lastSet r.calls k).map ParamsCall.shape = (lastSet r.params k).map paramsShape

theorem lastLeast {heights : List Nat} (descending : heights.Pairwise (fun a b => b < a)) {last}
    (final : heights.getLast? = some last) {h} (mem : h ∈ heights) : last ≤ h := by
  obtain ⟨init,rfl⟩ := getLast?_eq_some_iff.mp final
  rcases mem_append.mp mem with early | same
  · exact ((pairwise_append.mp descending).2.2 h early last (by simp)).le
  · rw [mem_singleton.mp same]

section
variable {g : Nat} {called : Bool} {s s' : ChainState} {v : BFTVotes} {r : Record}

theorem tipOfWindow (window : windowHeights v = h::rest) : API.currentHeight v = h := by
  unfold windowHeights at window
  unfold API.currentHeight
  cases infos : v.blockBFTInfos with
  | nil => rw [infos] at window; cases window
  | cons info others => rw [infos] at window; cases window; rfl

section
variable (follows : Follows g called s v r)
include follows

theorem windowBelow (mem : h ∈ windowHeights v) : h < r.next := by
  cases window : windowHeights v with
  | nil => rw [window] at mem; cases mem
  | cons top rest =>
    have tip := tipOfWindow window
    have small := follows.small top (window ▸ mem_cons_self)
    have within : h ≤ top := by
      rw [window] at mem
      rcases mem_cons.mp mem with rfl | later
      · exact le_rfl
      · exact ((pairwise_cons.mp (window ▸ follows.descending)).1 h later).le
    rw [Record.next,← follows.tip,tip,u32Small (by unfold maxUint32 at small; omega)]
    omega

theorem certifiedStep (acc : verifyBlockAccepts c now s n = true)
    (moved : certified = if n.aggregateCommit.empty then v.maxHeightCertified else n.aggregateCommit.height) :
    certified ≤ maxUint32 ∧ u32 (v.maxHeightCertified+1) ≤ u32 (certified+1) ∧
      (v.maxHeightCertified = maxUint32 → certified = maxUint32) := by
  have upper := follows.precommited
  have high := follows.certified
  cases empty : n.aggregateCommit.empty with
  | true =>
    rw [empty] at moved
    subst moved
    exact ⟨high,le_rfl,id⟩
  | false =>
    rw [empty] at moved
    obtain ⟨inc,bounded⟩ := certifiedBounds follows.votes acc empty
    have moved : certified = n.aggregateCommit.height := moved
    have room : certified < maxUint32 := by
      rcases follows.room with below | full
      · omega
      · omega
    unfold maxUint32 at *
    rw [u32Small (by omega),u32Small (by omega)]
    exact ⟨by omega,by omega,by omega⟩

theorem acceptedHeight (acc : verifyBlockAccepts c now s n = true) : n.height = r.next := by
  obtain ⟨_,checked⟩ := acceptsAccepted acc
  obtain ⟨last,rest,blocks,height,_⟩ := checked.linked
  have tip := follows.blocks
  rw [blocks] at tip
  rw [height,Record.next,← Option.some.inj tip]

theorem followsBlock {c : Engine} {now n} (ok : s.apply c.liskBFT (verifyBlockAccepts c) (.block now n) = some s') :
    ∃ v', Follows g false s' v' (r.after c.liskBFT (.block now n)) := by
  obtain ⟨acc,store',ran,rfl⟩ := applyBlock ok
  obtain ⟨v',room,moved,_⟩ := beforeMoves ran follows.votes
  have height := acceptedHeight follows acc
  obtain ⟨certifiedHigh,certifiedUp,certifiedFull⟩ := certifiedStep follows acc moved.certified
  have small := moved.small
  have nextTip : (r.after c.liskBFT (.block now n)).next = n.height+1 := by
    show u32 (n.height+1) = n.height+1
    exact u32Small (by unfold maxUint32 at small; omega)
  have smallAll : ∀ h ∈ windowHeights v', h < maxUint32 := by
    intro h mem
    rw [moved.heights] at mem
    rcases mem_cons.mp mem with rfl | old
    · exact small
    · exact follows.small h (mem_of_mem_take old)
  have order : (windowHeights v').Pairwise (fun a b => b < a) := by
    rw [moved.heights]
    refine pairwise_cons.mpr ⟨fun h old => ?_,follows.descending.sublist (take_sublist _ _)⟩
    exact height ▸ windowBelow follows (mem_of_mem_take old)
  obtain ⟨last',final'⟩ : ∃ last', (windowHeights v').getLast? = some last' := ⟨_,moved.heights ▸ getLast?_cons⟩
  have low' := lowestNeededHeights final'
  have lowUp : lowestNeeded v ≤ lowestNeeded v' := by
    cases final : (windowHeights v).getLast? with
    | none => rw [lowestEmpty (getLast?_eq_none_iff.mp final)]; exact zero_le _
    | some last =>
      rw [lowestNeededHeights final,low']
      refine min_le_min ?_ certifiedUp
      have lastIn := mem_of_getLast? final'
      rw [moved.heights] at lastIn
      rcases mem_cons.mp lastIn with rfl | old
      · exact height ▸ (windowBelow follows (mem_of_getLast? final)).le
      · exact lastLeast follows.descending final (mem_of_mem_take old)
  refine ⟨v',?_⟩
  rw [moved.result]
  exact {
    votesCoherent := Database.setCoherent follows.votesCoherent _ _
    votes := by simp [Database.setView follows.votesCoherent]
    blocks := rfl
    tip := tipOfWindow moved.heights
    descending := order
    small := smallAll
    certified := certifiedHigh
    precommited := by
      rcases moved.precommited with same | listed
      · rw [same]; exact follows.precommited
      · exact (smallAll _ listed).le
    room := by
      rcases moved.precommited with same | listed
      · rw [same]
        exact follows.room.imp_right certifiedFull
      · exact .inl (smallAll _ listed)
    started := fun _ => by
      refine ⟨by rw [moved.heights]; exact cons_ne_nil _ _,?_⟩
      cases began : r.started with
      | true => exact (follows.started began).2.trans lowUp
      | false =>
        obtain ⟨window,tip,certified⟩ := follows.waiting began
        have only : windowHeights v' = [n.height] := by rw [moved.heights,window,take_nil]
        rw [only] at final'
        rw [low',← Option.some.inj final',height,Record.next,tip]
        exact le_min le_rfl (certified ▸ certifiedUp)
    waiting := nofun
    params := (follows.params.delete lowUp (by rw [nextTip,height]; exact le_succ _))
    keys := (follows.keys.delete lowUp (by rw [nextTip,height]; exact le_succ _))
    recent := fun e mem => by
      rw [nextTip,height]
      exact (follows.recent e mem).trans (le_succ _)
    fresh := fun _ e mem => ⟨(follows.recent e mem).trans height.ge,small⟩
    matched := follows.matched }

theorem lowestLeMember {h} (mem : h ∈ windowHeights v) : lowestNeeded v ≤ h := by
  obtain ⟨last,final⟩ := Option.ne_none_iff_exists'.mp (getLast?_eq_none_iff.not.mpr (ne_nil_of_mem mem))
  rw [lowestNeededHeights final]
  exact (min_le_left _ _).trans (lastLeast follows.descending final mem)

theorem lowestLeTip : lowestNeeded v ≤ r.tip := by
  cases window : windowHeights v with
  | nil => rw [lowestEmpty window]; exact zero_le _
  | cons top rest => exact lowestLeMember follows (by rw [← follows.tip,tipOfWindow window,window]; exact .head _)

theorem lowestLeNext : lowestNeeded v ≤ r.next := by
  cases window : windowHeights v with
  | nil => rw [lowestEmpty window]; exact zero_le _
  | cons top rest =>
    have mem := window ▸ mem_cons_self
    exact (lowestLeMember follows mem).trans (windowBelow follows mem).le

theorem inForceShape (call : ParamsCall) :
    (∃ p, getBFTParams s.store.params (API.currentHeight v) = .ok p ∧ paramsShape p = call.shape) ↔
      (lastSet r.params r.tip).map paramsShape = some call.shape := by
  rw [follows.tip,Option.map_eq_some_iff]
  simp only [getBFTParamsTracked follows.params (lowestLeTip follows)]

end

theorem lastSetTip (follows : Follows g false s v r) (found : (lastSet r.params r.tip).map paramsShape = some shape) (late : r.next ≤ k) :
    lastSet r.params k = lastSet r.params r.tip := by
  cases history : r.params with
  | nil => rw [history] at found; cases found
  | cons e rest =>
    have small := (follows.fresh rfl e (history ▸ mem_cons_self)).2
    rw [← history]
    refine lastSetLater (fun e mem => (follows.fresh rfl e mem).1) ?_
    rw [Record.next,u32Small (by unfold maxUint32 at small; omega)] at late
    omega

theorem followsChanged (follows : Follows g called s v r) (m : Module) (call : ParamsCall) :
    Follows g true {s with store := ⟨s.store.votes.set () (votesWithValidators v call.validators),
        s.store.params.set (u32 (API.currentHeight v+1)) (call.params m),s.store.keys⟩} (votesWithValidators v call.validators)
      {r with calls := (r.next,call)::r.calls, params := (r.next,call.params m)::r.params} := by
  have place : u32 (API.currentHeight v+1) = r.next := by rw [follows.tip]; rfl
  rw [place]
  refine {follows with
    votesCoherent := Database.setCoherent follows.votesCoherent _ _
    votes := by simp [Database.setView follows.votesCoherent]
    params := follows.params.set _
    recent := fun e mem => ?_
    fresh := nofun
    matched := fun k => ?_}
  · rcases mem_cons.mp mem with rfl | old
    · exact le_rfl
    · exact follows.recent e old
  rcases lt_or_ge k r.next with early | late
  · rw [lastSetAbove early,lastSetAbove early]
    exact follows.matched k
  · rw [lastSetFrom late,lastSetFrom late]
    rfl

theorem applyParams (call : ParamsCall)
    (ok : s.apply m accept (.setBFTParameters call.precommitThreshold call.certificateThreshold call.validators) = some s') :
    ∃ store', API.setBFTParameters m s.store call.precommitThreshold call.certificateThreshold
        call.validators = .ok store' ∧ s' = {s with store := store'} := by
  simp only [ChainState.apply] at ok
  cases changed : API.setBFTParameters m s.store call.precommitThreshold call.certificateThreshold call.validators with
  | error e => rw [changed] at ok; cases ok
  | ok store' => rw [changed] at ok; cases ok; exact ⟨store',rfl,rfl⟩

theorem followsParams (follows : Follows g false s v r)
    (ok : s.apply c.liskBFT (verifyBlockAccepts c) (.setBFTParameters precommitThreshold certificateThreshold validators) = some s') :
    ∃ v', Follows g true s' v' (r.after c.liskBFT (.setBFTParameters precommitThreshold certificateThreshold validators)) := by
  let call : ParamsCall := ⟨precommitThreshold,certificateThreshold,validators⟩
  obtain ⟨store',changed,rfl⟩ := applyParams call ok
  rcases setParamsResult call changed follows.votes with ⟨unchanged,rfl⟩ | ⟨ne,rfl⟩
  · have same := (inForceShape follows call).mp unchanged
    have recorded : r.after c.liskBFT (.setBFTParameters precommitThreshold certificateThreshold validators) =
        {r with calls := (r.next,call)::r.calls} := by
      simp only [Record.after]
      rw [if_pos same]
    rw [recorded]
    refine ⟨v,{follows with fresh := nofun, matched := fun k => ?_}⟩
    rcases lt_or_ge k r.next with early | late
    · rw [lastSetAbove early]
      exact follows.matched k
    · rw [lastSetFrom late,lastSetTip follows same late,same]
      rfl
  · have recorded : r.after c.liskBFT (.setBFTParameters precommitThreshold certificateThreshold validators) =
        {r with calls := (r.next,call)::r.calls, params := (r.next,call.params c.liskBFT)::r.params} := by
      simp only [Record.after]
      rw [if_neg (fun same => ne ((inForceShape follows call).mpr same))]
    rw [recorded]
    exact ⟨_,followsChanged follows c.liskBFT call⟩

theorem followsKeys (follows : Follows g called s v r)
    (ok : s.apply c.liskBFT (verifyBlockAccepts c) (.setGeneratorKeys generators) = some s') :
    Follows g called s' v (r.after c.liskBFT (.setGeneratorKeys generators)) := by
  simp only [ChainState.apply] at ok
  cases changed : API.setGeneratorKeys s.store generators with
  | error e => rw [changed] at ok; cases ok
  | ok store' =>
    rw [changed] at ok
    cases ok
    obtain ⟨v',read,changed⟩ := bindOk changed
    have same : v' = v := Option.some.inj ((getVotesOk.mp read).symm.trans follows.votes)
    cases changed
    have place : u32 (API.currentHeight v'+1) = r.next := by rw [same,follows.tip]; rfl
    refine {follows with keys := ?_}
    rw [place]
    exact follows.keys.set generators

theorem followsCommit (follows : Follows g called s v r) : Follows g called {s with store := flushStore s.store} v r :=
  {follows with
    votesCoherent := Database.flushCoherent _
    votes := (Database.flushView follows.votesCoherent ()).trans follows.votes
    params := follows.params.flush
    keys := follows.keys.flush }

end

def paramsOnce : Bool → List Event → Bool
  | _, [] => true
  | _, .block _ _ :: rest => paramsOnce false rest
  | called, .setBFTParameters _ _ _ :: rest => !called && paramsOnce true rest
  | called, .setGeneratorKeys _ :: rest => paramsOnce called rest
  | called, .commit :: rest => paramsOnce called rest

theorem followsRun (once : paramsOnce called events = true) (follows : Follows g called s v r)
    (run : s.run c.liskBFT (verifyBlockAccepts c) events = some s') :
    ∃ called' v', Follows g called' s' v' (events.foldl (·.after c.liskBFT) r) := by
  induction events generalizing called s v r with
  | nil => cases run; exact ⟨called,v,follows⟩
  | cons e rest ih =>
    obtain ⟨next,applied,later⟩ := runCons run
    cases e with
    | block now n =>
      obtain ⟨_,next'⟩ := followsBlock follows applied
      exact ih once next' later
    | setBFTParameters pre cert vals =>
      simp only [paramsOnce,and_eq_true,not_eq_true'] at once
      obtain ⟨rfl,once⟩ := once
      obtain ⟨_,next'⟩ := followsParams follows applied
      exact ih once next' later
    | setGeneratorKeys gens => exact ih once (followsKeys follows applied) later
    | commit =>
      cases applied
      exact ih once (followsCommit follows) later

theorem genesisFollows (genesis : BlockHeader) (uint32 : genesis.height ≤ maxUint32) :
    Follows genesis.height false (genesisState genesis) ⟨genesis.height,genesis.height,genesis.height,[],[]⟩
      (Record.start genesis) := by
  obtain ⟨coh,votes⟩ := genesisVotes genesis
  exact {
    votesCoherent := coh
    votes := votes
    blocks := rfl
    tip := rfl
    descending := List.Pairwise.nil
    small := by simp [windowHeights]
    certified := uint32
    precommited := uint32
    room := lt_or_eq_of_le uint32
    started := nofun
    waiting := fun _ => ⟨rfl,rfl,rfl⟩
    params := tracksNew _ _
    keys := tracksNew _ _
    recent := by simp [Record.start]
    fresh := by simp [Record.start]
    matched := fun _ => rfl }

theorem followsStep (follows : Follows g called s v r) (ok : s.apply c.liskBFT (verifyBlockAccepts c) e = some s') :
    ∃ called' v' r', Follows g called' s' v' r' := by
  cases e with
  | block now n =>
    obtain ⟨v',next'⟩ := followsBlock follows ok
    exact ⟨false,v',_,next'⟩
  | setBFTParameters pre cert vals =>
    obtain ⟨store',changed,rfl⟩ := applyParams ⟨pre,cert,vals⟩ ok
    rcases setParamsResult _ changed follows.votes with ⟨_,rfl⟩ | ⟨_,rfl⟩
    · exact ⟨called,v,r,follows⟩
    · exact ⟨true,_,_,followsChanged follows c.liskBFT _⟩
  | setGeneratorKeys gens => exact ⟨called,v,_,followsKeys follows ok⟩
  | commit =>
    cases ok
    exact ⟨called,v,r,followsCommit follows⟩

theorem reachFollows (uint32 : genesis.height ≤ maxUint32)
    (run : (genesisState genesis).run c.liskBFT (verifyBlockAccepts c) events = some s) :
    ∃ called v r, Follows genesis.height called s v r := by
  have step : ∀ s e s', True → (∃ called v r, Follows genesis.height called s v r) →
      s.apply c.liskBFT (verifyBlockAccepts c) e = some s' → ∃ called v r, Follows genesis.height called s' v r := by
    intro s e s' _ ⟨called,v,r,follows⟩ ok
    exact followsStep follows ok
  exact runInduction _ step (fun _ _ => trivial) ⟨false,_,_,genesisFollows genesis uint32⟩ run

def genesisSets : Bool → Bool → List Event → Bool
  | _, _, [] => false
  | params, keys, .block _ _ :: _ => params && keys
  | _, keys, .setBFTParameters _ _ _ :: rest => genesisSets true keys rest
  | params, _, .setGeneratorKeys _ :: rest => genesisSets params true rest
  | params, keys, .commit :: rest => genesisSets params keys rest

section
variable (m : Module)

theorem afterKeeps (r : Record) (e : Event) :
    r.params ⊆ (r.after m e).params ∧ r.keys ⊆ (r.after m e).keys ∧ (r.started = true → (r.after m e).started = true) := by
  cases e with
  | block _ _ => exact ⟨List.Subset.refl _,List.Subset.refl _,fun _ => rfl⟩
  | setBFTParameters _ _ _ =>
    refine ⟨?_,List.Subset.refl _,id⟩
    simp only [Record.after]
    split
    · exact List.Subset.refl _
    · exact subset_cons_self _ _
  | setGeneratorKeys _ => exact ⟨List.Subset.refl _,subset_cons_self _ _,id⟩
  | commit => exact ⟨List.Subset.refl _,List.Subset.refl _,id⟩

theorem recordKeeps (events : List Event) (r : Record) :
    r.params ⊆ (events.foldl (·.after m) r).params ∧ r.keys ⊆ (events.foldl (·.after m) r).keys ∧
      (r.started = true → (events.foldl (·.after m) r).started = true) := by
  induction events generalizing r with
  | nil => exact ⟨List.Subset.refl _,List.Subset.refl _,id⟩
  | cons e rest ih =>
    obtain ⟨params,keys,started⟩ := afterKeeps m r e
    obtain ⟨params',keys',started'⟩ := ih (r.after m e)
    exact ⟨List.Subset.trans params params',List.Subset.trans keys keys',fun h => started' (started h)⟩

theorem recordSets {params keys events} (sets : genesisSets params keys events = true) {r : Record}
    (paramsSet : if params then ∃ p, (r.next,p) ∈ r.params else r.params = [])
    (keysSet : keys = true → ∃ gens, (r.next,gens) ∈ r.keys) : (∃ p, (r.next,p) ∈ (events.foldl (·.after m) r).params) ∧
      (∃ gens, (r.next,gens) ∈ (events.foldl (·.after m) r).keys) ∧ (events.foldl (·.after m) r).started = true := by
  induction events generalizing params keys r with
  | nil => cases sets
  | cons e rest ih =>
    cases e with
    | block now n =>
      simp only [genesisSets,and_eq_true] at sets
      obtain ⟨rfl,rfl⟩ := sets
      obtain ⟨p,first⟩ := paramsSet
      obtain ⟨gens,second⟩ := keysSet rfl
      obtain ⟨allParams,allKeys,started⟩ := recordKeeps m rest (r.after m (.block now n))
      exact ⟨⟨p,allParams first⟩,⟨gens,allKeys second⟩,started rfl⟩
    | setBFTParameters pre cert vals =>
      refine @ih true keys sets (r.after m (.setBFTParameters pre cert vals)) ?_ keysSet
      cases params with
      | true =>
        obtain ⟨p,first⟩ := paramsSet
        exact ⟨p,(afterKeeps m r _).1 first⟩
      | false =>
        have empty : r.params = [] := paramsSet
        refine ⟨ParamsCall.params m ⟨pre,cert,vals⟩,?_⟩
        simp only [Record.after,empty]
        exact .head _
    | setGeneratorKeys gens =>
      exact ih sets (r := r.after m (.setGeneratorKeys gens)) paramsSet (fun _ => ⟨gens,mem_cons_self⟩)
    | commit => exact ih sets paramsSet keysSet

end

theorem neededHistoryKept (c : Engine) (genesis : BlockHeader) (uint32 : genesis.height ≤ maxUint32) (events : List Event)
    (sets : genesisSets false false events = true) (once : paramsOnce false events = true) (s : ChainState)
    (run : (genesisState genesis).run c.liskBFT (verifyBlockAccepts c) events = some s) :
    ∃ v oldest, s.store.getVotes = .ok v ∧ v.blockBFTInfos.getLast? = some oldest ∧
      ∀ k, min oldest.height (v.maxHeightCertified + 1) ≤ k → ∃ p generators call,
        getBFTParams s.store.params k = .ok p ∧ getGeneratorKeys s.store.keys k = .ok generators ∧
        lastSet (Record.run c.liskBFT genesis events).params k = some p ∧
        lastSet (Record.run c.liskBFT genesis events).keys k = some generators ∧
        lastSet (Record.run c.liskBFT genesis events).calls k = some call ∧ call.shape = paramsShape p := by
  obtain ⟨called,v,follows⟩ := followsRun once (genesisFollows genesis uint32) run
  obtain ⟨⟨p₀,params⟩,⟨generators₀,keys⟩,started⟩ := recordSets c.liskBFT sets (r := Record.start genesis) rfl nofun
  obtain ⟨window,base⟩ := follows.started started
  obtain ⟨oldest,final⟩ : ∃ oldest, v.blockBFTInfos.getLast? = some oldest := by
    cases last : v.blockBFTInfos.getLast? with
    | none => exact absurd (by simpa [windowHeights] using last) window
    | some oldest => exact ⟨oldest,rfl⟩
  refine ⟨v,oldest,getVotesOk.mpr follows.votes,final,fun k above => ?_⟩
  have needed : lowestNeeded v ≤ k := by
    rw [lowestNeeded,final]
    exact (min_le_min le_rfl (Nat.mod_le _ _)).trans above
  obtain ⟨p,atParams⟩ := lastSetSome params (base.trans needed)
  obtain ⟨generators,atKeys⟩ := lastSetSome keys (base.trans needed)
  have matched := follows.matched k
  rw [atParams] at matched
  obtain ⟨call,atCall,shape⟩ := Option.map_eq_some_iff.mp matched
  exact ⟨p,generators,call,(getBFTParamsTracked follows.params needed p).mpr atParams,
    (getGeneratorKeysTracked follows.keys needed generators).mpr atKeys,atParams,atKeys,atCall,shape⟩

def sampleHistory : List Event :=
  [.setGeneratorKeys [⟨[1],[]⟩],.setBFTParameters 1 1 [sampleValidator 1],.commit,
    .block 100 (sampleHeader 1 1 10 0 1 0 0),.commit,.block 100 (sampleHeader 2 2 20 1 1 1 1),
    .setBFTParameters 2 2 [⟨[1],2,[1]⟩],.setGeneratorKeys [⟨[1],[7]⟩],.commit,
    .block 100 (sampleHeader 3 3 30 2 1 2 2),.commit]

theorem neededHistoryKeptSample : ∃ s, (genesisState (sampleHeader 0 0 0 0 0 0 0)).run sampleEngine.liskBFT
      (verifyBlockAccepts sampleEngine) sampleHistory = some s ∧
    ∃ v oldest, s.store.getVotes = .ok v ∧ v.blockBFTInfos.getLast? = some oldest ∧
      ∀ k, min oldest.height (v.maxHeightCertified + 1) ≤ k → ∃ p generators call,
        getBFTParams s.store.params k = .ok p ∧ getGeneratorKeys s.store.keys k = .ok generators ∧
        lastSet (Record.run sampleEngine.liskBFT (sampleHeader 0 0 0 0 0 0 0) sampleHistory).params k = some p ∧
        lastSet (Record.run sampleEngine.liskBFT (sampleHeader 0 0 0 0 0 0 0) sampleHistory).keys k = some generators ∧
        lastSet (Record.run sampleEngine.liskBFT (sampleHeader 0 0 0 0 0 0 0) sampleHistory).calls k = some call ∧
        call.shape = paramsShape p := by
  have runs : ((genesisState (sampleHeader 0 0 0 0 0 0 0)).run sampleEngine.liskBFT (verifyBlockAccepts sampleEngine)
    sampleHistory).isSome = true := by decide +kernel
  obtain ⟨s,run⟩ := Option.isSome_iff_exists.mp runs
  exact ⟨s,run,neededHistoryKept sampleEngine _ (by decide) sampleHistory (by decide) (by decide) s run⟩

end LiskEngine.Consensus
