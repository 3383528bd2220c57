import LiskEngine.BftInvariant

/-! The vote state along a chain: the invariant holds after every header that
passes the height, prevoted height and contradiction checks. -/
namespace LiskEngine.Liskbft
open Contradiction BFTVotes List BFTPartialBlockHeader

/-- A quorum of prevotes for a height at or above `t`, all from headers that were
made while the chain's prevoted height was still below `t`. -/
def PrevoteEvidence (P : Nat → BFTParams) (chain : List BlockHeader) (t : Nat) : Prop :=
  ∃ k voters, t ≤ k ∧ k ≤ (chain.head?.map (·.height)).getD 0 ∧
    (P k).prevoteThreshold ≤ votersWeight (P k) voters ∧
    ∀ a ∈ voters, IsValidator (P k) a ∧ ∃ y ∈ chain, y.generatorAddress = a ∧
      y.maxHeightGenerated < k ∧ k ≤ y.height ∧ y.maxHeightPrevoted < t

def PrecommitEvidence (P : Nat → BFTParams) (chain : List BlockHeader) (k : Nat) : Prop :=
  ∃ voters, (P k).precommitThreshold ≤ votersWeight (P k) voters ∧
    ∀ a ∈ voters, PrecommittedBy (P k) chain k a

structure VotesInv (good : BFTParams → Prop) (g : Nat) (P : Nat → BFTParams) (chain : List BlockHeader)
    (v : BFTVotes) : Prop where
  window : Window g chain v.blockBFTInfos
  small : g + chain.length < maxUint32
  params : ∀ k, g < k → k ≤ g + chain.length → good (P k)
  acknowledged : ∀ y ∈ chain, y.maxHeightPrevoted ≤ v.maxHeightPrevoted
  tallies : ∀ i ∈ v.blockBFTInfos, ∃ S T, Tallied (P i.height) chain v.activeValidatorsVoteInfo i S T
  active : ∀ a info, ActiveValidator.find v.activeValidatorsVoteInfo a = some info →
    info.largestHeightPrecommit ≤ g + chain.length
  prevotedTop : ∀ i ∈ v.blockBFTInfos, meetsPrevote (P i.height) i = true → i.height ≤ v.maxHeightPrevoted
  prevotedHeld : ∀ i ∈ v.blockBFTInfos, i.height = v.maxHeightPrevoted → meetsPrevote (P i.height) i = true
  precommitedHeld : ∀ i ∈ v.blockBFTInfos, i.height = v.maxHeightPrecommited → meetsPrecommit (P i.height) i = true
  genesis : g ≤ v.maxHeightPrecommited
  ordered : v.maxHeightPrecommited ≤ v.maxHeightPrevoted
  tip : v.maxHeightPrevoted ≤ g + chain.length
  prevoteEvidence : ∀ t, g < t → t ≤ v.maxHeightPrevoted → PrevoteEvidence P chain t
  precommitEvidence : g < v.maxHeightPrecommited → PrecommitEvidence P chain v.maxHeightPrecommited

structure Checked (g : Nat) (chain : List BlockHeader) (v : BFTVotes) (n : BlockHeader) : Prop where
  height : n.height = g + chain.length + 1
  prevoted : n.maxHeightPrevoted = v.maxHeightPrevoted
  consistent : v.contradicting (newBFTBlockHeader n) = false

structure Applied (P : Nat → BFTParams) (room : Nat) (n : BlockHeader) (v v' : BFTVotes) : Prop where
  voted : ∃ prevoted precommitted, Voted P (newBlockBFTInfo n) v.activeValidatorsVoteInfo
    v'.activeValidatorsVoteInfo (newBlockBFTInfo n :: v.blockBFTInfos.take room) v'.blockBFTInfos prevoted precommitted
  prevotedHeight : v'.maxHeightPrevoted =
    ((v'.blockBFTInfos.find? (fun i => meetsPrevote (P i.height) i)).map (·.height)).getD v.maxHeightPrevoted
  precommitedHeight : v'.maxHeightPrecommited =
    ((v'.blockBFTInfos.find? (fun i => meetsPrecommit (P i.height) i)).map (·.height)).getD v.maxHeightPrecommited

section
variable {good : BFTParams → Prop} {g : Nat} {P : Nat → BFTParams} {chain : List BlockHeader} {v v' : BFTVotes}
  {n : BlockHeader} {room : Nat}

theorem contradictingNewest (header : BFTPartialBlockHeader)
    (hit : v.blockBFTInfos.find? (·.generatorAddress = header.generatorAddress) = some b) :
    v.contradicting header = areDistinctHeadersContradicting b.partialHeader header := by
  unfold contradicting
  rw [hit]

theorem prevoteFresh (inv : VotesInv good g P chain v) (checked : Checked g chain v n) (mem : i ∈ v.blockBFTInfos)
    (tallied : Tallied (P i.height) chain v.activeValidatorsVoteInfo i S T) (above : n.maxHeightGenerated < i.height) :
    n.generatorAddress ∉ S := by
  intro already
  obtain ⟨_,y,inChain,own,_,atMost⟩ := tallied.prevoted _ already
  obtain ⟨j,inWindow,eq⟩ := inv.window.upward mem inChain atMost
  have gen := (congrArg generatorAddress eq).trans own
  have height : j.height = y.height := congrArg height eq
  obtain ⟨b,inside,hit,newest⟩ := inv.window.newestOf inWindow gen
  have bOwn : b.generatorAddress = n.generatorAddress := by simpa using find?_some hit
  obtain ⟨c,cIn,cEq⟩ := inv.window.memberOf inside
  have prevoted : b.maxHeightPrevoted ≤ n.maxHeightPrevoted := by
    have same : b.maxHeightPrevoted = c.maxHeightPrevoted := congrArg BFTPartialBlockHeader.maxHeightPrevoted cEq
    rw [same,checked.prevoted]
    exact inv.acknowledged c cIn
  have lower : b.height < n.height := by
    have := (inv.window.bounds inside).2
    have := checked.height
    omega
  have agree := (contradictingNewest (newBFTBlockHeader n) hit).symm.trans checked.consistent
  have ack := ((@Contradiction.acknowledged b.partialHeader (newBFTBlockHeader n) bOwn lower prevoted).mp agree).1
  have : b.height ≤ n.maxHeightGenerated := ack
  omega

theorem voteStepEntry (inv : VotesInv good g P chain v) (wf : ∀ p, good p → WellFormed p) (goodNew : good (P n.height))
    (checked : Checked g chain v n) (small : g+chain.length+1 < maxUint32)
    (voted : Voted P (newBlockBFTInfo n) v.activeValidatorsVoteInfo active'
      (newBlockBFTInfo n::v.blockBFTInfos.take room) window' prevoted precommitted)
    (mem : i ∈ newBlockBFTInfo n::v.blockBFTInfos.take room) :
    let after := recordVotes P n.generatorAddress prevoted precommitted i
    i.prevoteWeight ≤ after.prevoteWeight ∧ i.precommitWeight ≤ after.precommitWeight ∧
      ∃ S' T', Tallied (P i.height) (n::chain) active' after S' T' := by
  have pushed := inv.window.push checked.height room
  have bounds := pushed.bounds mem
  have height := checked.height
  simp only [length_cons] at bounds
  have old : i ∈ v.blockBFTInfos.take room → i ∈ v.blockBFTInfos := fun h => mem_of_mem_take h
  have goodHere : WellFormed (P i.height) := by
    rcases mem_cons.mp mem with rfl | inside
    · exact wf _ goodNew
    · exact wf _ (inv.params i.height bounds.1 (inv.window.bounds (old inside)).2)
  have bounded : ∀ a, ActiveValidator.find v.activeValidatorsVoteInfo n.generatorAddress = some a →
      a.largestHeightPrecommit < maxUint32 := by
    intro a hit
    have := inv.active _ a hit
    omega
  have given : prevoted i = true → IsValidator (P i.height) n.generatorAddress ∧ n.maxHeightGenerated < i.height := by
    intro given
    obtain ⟨lower,atLeast,val⟩ := voted.prevotes i mem given
    have lower : n.maxHeightGenerated < n.height := lower
    have atLeast : u32 (n.maxHeightGenerated+1) ≤ i.height := atLeast
    rw [u32Small (by unfold maxUint32 at small; omega)] at atLeast
    exact ⟨val,by omega⟩
  obtain ⟨S,T,tallied⟩ : ∃ S T, Tallied (P i.height) chain v.activeValidatorsVoteInfo i S T ∧
      (prevoted i = true → n.generatorAddress ∉ S) := by
    rcases mem_cons.mp mem with rfl | inside
    · exact ⟨∅,∅,talliedNew _ _ _ n,fun _ => Finset.notMem_empty _⟩
    obtain ⟨S,T,tallied⟩ := inv.tallies i (old inside)
    exact ⟨S,T,tallied,fun voted => prevoteFresh inv checked (old inside) tallied (given voted).2⟩
  obtain ⟨tallied,fresh⟩ := tallied
  refine talliedRecord voted mem goodHere tallied bounded fresh (fun prevoted => ?_) (fun given => ?_)
  · obtain ⟨val,lower⟩ := given prevoted
    exact ⟨val,n,mem_cons_self,rfl,lower,by omega⟩
  · obtain ⟨lower,quorum,notPrevoted,_,val⟩ := voted.precommits i mem given
    have lower := lower
    refine ⟨val,n,mem_cons_self,rfl,?_,?_⟩
    · rcases mem_cons.mp mem with rfl | inside
      · have pos := goodHere.prevote
        have nothing : (newBlockBFTInfo n).prevoteWeight = 0 := rfl
        omega
      · rw [checked.prevoted]
        exact inv.prevotedTop i (old inside) (by simpa [meetsPrevote] using quorum)
    · have sized := pushed.lengthLe
      refine walkBack (newBlockBFTInfo n) pushed ?_ (by simp only [length_cons]; omega)
        (cons_ne_nil _ _) rfl lower ?_ notPrevoted
      · simp only [length_cons]; exact height
      · show _ ≤ n.height-n.maxHeightGenerated+_
        omega

structure Succeeds (P : Nat → BFTParams) (chain : List BlockHeader) (active : List ActiveValidator)
    (i i' : BFTBlockHeader) : Prop where
  partialHeader : i'.partialHeader = i.partialHeader
  prevotes : i.prevoteWeight ≤ i'.prevoteWeight
  precommits : i.precommitWeight ≤ i'.precommitWeight
  tallied : ∃ S T, Tallied (P i'.height) chain active i' S T

theorem voteStepWindow (inv : VotesInv good g P chain v) (wf : ∀ p, good p → WellFormed p)
    (goodNew : good (P n.height)) (checked : Checked g chain v n) (small : g+chain.length+1 < maxUint32)
    (applied : Applied P room n v v') : Window g (n::chain) v'.blockBFTInfos ∧ ∀ i' ∈ v'.blockBFTInfos,
      ∃ i ∈ newBlockBFTInfo n::v.blockBFTInfos.take room, Succeeds P (n::chain) v'.activeValidatorsVoteInfo i i' := by
  obtain ⟨prevoted,precommitted,voted⟩ := applied.voted
  refine ⟨(inv.window.push checked.height room).congr ?_,fun i' mem => ?_⟩
  · rw [voted.infos,map_map]
    exact map_congr_left (fun i _ => rfl)
  rw [voted.infos] at mem
  obtain ⟨i,inside,rfl⟩ := mem_map.mp mem
  obtain ⟨prevotes,precommits,S,T,tallied⟩ := voteStepEntry inv wf goodNew checked small voted inside
  exact ⟨i,inside,rfl,prevotes,precommits,S,T,tallied⟩

theorem oldEntry (checked : Checked g chain v n) (inside : i ∈ newBlockBFTInfo n::v.blockBFTInfos.take room)
    (ok : Succeeds P (n::chain) active i i') (reached : i'.height ≤ g+chain.length) : i ∈ v.blockBFTInfos ∧ i'.height = i.height := by
  have height : i'.height = i.height := congrArg height ok.partialHeader
  rcases mem_cons.mp inside with rfl | old
  · have top : (newBlockBFTInfo n).height = n.height := rfl
    have := checked.height
    omega
  · exact ⟨mem_of_mem_take old,height⟩

theorem evidenceGrows (checked : Checked g chain v n) (consec : Consecutive g chain)
    (evidence : PrevoteEvidence P chain t) : PrevoteEvidence P (n::chain) t := by
  obtain ⟨k,voters,above,fit,quorum,traced⟩ := evidence
  refine ⟨k,voters,above,?_,quorum,fun a mem => ?_⟩
  · cases chain with
    | nil => simp at fit; simp; omega
    | cons b rest =>
      have := consec.1
      have := checked.height
      simp only [head?_cons,Option.map_some,Option.getD_some,length_cons] at fit this ⊢
      omega
  · obtain ⟨val,y,inChain,facts⟩ := traced a mem
    exact ⟨val,y,mem_cons_of_mem _ inChain,facts⟩

theorem heldAfter (checked : Checked g chain v n)
    (es : ∀ i' ∈ v'.blockBFTInfos, ∃ i ∈ newBlockBFTInfo n::v.blockBFTInfos.take room, Succeeds P (n::chain) active i i')
    (meets : BFTBlockHeader → Bool) (grows : ∀ {i i'}, Succeeds P (n::chain) active i i' → i'.height = i.height →
      meets i = true → meets i' = true) (fit : t ≤ g+chain.length)
    (held : ∀ i ∈ v.blockBFTInfos, i.height = t → meets i = true) :
    ∀ i' ∈ v'.blockBFTInfos, i'.height = t → meets i' = true := by
  intro i' mem same
  obtain ⟨i,inside,ok⟩ := es i' mem
  obtain ⟨old,eq⟩ := oldEntry checked inside ok (by omega)
  exact grows ok eq (held i old (by omega))

theorem Tallied.prevoteMet (tallied : Tallied p chain active i S T) (wf : WellFormed p) (met : meetsPrecommit p i = true) :
    meetsPrevote p i = true := by
  have pos := wf.precommit
  simp only [meetsPrecommit,decide_eq_true_eq,ge_iff_le] at met
  have ne : T.Nonempty := by
    by_contra empty
    rw [Finset.not_nonempty_iff_eq_empty] at empty
    have := tallied.precommitWeight
    rw [empty,votersWeightEmpty] at this
    omega
  simpa [meetsPrevote] using tallied.quorum ne

theorem activeAfter (inv : VotesInv good g P chain v) (checked : Checked g chain v n) (applied : Applied P room n v v')
    (hit : ActiveValidator.find v'.activeValidatorsVoteInfo a = some info) :
    info.largestHeightPrecommit ≤ g+(n::chain).length := by
  obtain ⟨prevoted,precommitted,voted⟩ := applied.voted
  by_cases own : a = (newBlockBFTInfo n).generatorAddress
  · subst own
    obtain ⟨old,original,⟨same,_⟩ | ⟨j,inside,_,largest,_⟩⟩ := voted.own info hit
    · have := inv.active _ old original
      rw [same]
      simp only [length_cons]
      omega
    · rw [largest]
      exact ((inv.window.push checked.height room).bounds inside).2
  · rw [voted.others a own] at hit
    have := inv.active a info hit
    simp only [length_cons]
    omega

theorem evidenceNew (inv : VotesInv good g P chain v) (checked : Checked g chain v n)
    (tallied : Tallied (P i.height) (n::chain) active i S T) (met : meetsPrevote (P i.height) i = true)
    (fit : i.height ≤ g+(n::chain).length) (new : v.maxHeightPrevoted < t) (reached : t ≤ i.height) :
    PrevoteEvidence P (n::chain) t := by
  have height := checked.height
  simp only [meetsPrevote,decide_eq_true_eq,ge_iff_le] at met
  refine ⟨i.height,S,reached,?_,tallied.prevoteWeight ▸ met,fun a inside => ?_⟩
  · simp only [length_cons] at fit
    simp only [head?_cons,Option.map_some,Option.getD_some]
    omega
  · obtain ⟨val,y,inChain,own,lower,upper⟩ := tallied.prevoted a inside
    refine ⟨val,y,inChain,own,lower,upper,?_⟩
    rcases mem_cons.mp inChain with rfl | earlier
    · rw [checked.prevoted]; exact new
    · have := inv.acknowledged y earlier
      omega

theorem votesStep (inv : VotesInv good g P chain v) (wf : ∀ p, good p → WellFormed p) (goodNew : good (P n.height))
    (checked : Checked g chain v n) (small : g+chain.length+1 < maxUint32) (applied : Applied P room n v v') :
    VotesInv good g P (n::chain) v' ∧ v.maxHeightPrevoted ≤ v'.maxHeightPrevoted ∧
      v.maxHeightPrecommited ≤ v'.maxHeightPrecommited := by
  obtain ⟨window,es⟩ := voteStepWindow inv wf goodNew checked small applied
  have height := checked.height
  have tip := inv.tip
  have ordered := inv.ordered
  have goodAt : ∀ k, g < k → k ≤ g+(n::chain).length → good (P k) := by
    intro k low high
    simp only [length_cons] at high
    rcases lt_or_ge (g+chain.length) k with new | old
    · have : k = n.height := by omega
      exact this ▸ goodNew
    · exact inv.params k low old
  have prevotedHeld := heldAfter checked es (fun i => meetsPrevote (P i.height) i) (fun ok eq met => by
    have grows := ok.prevotes
    simp only [eq,meetsPrevote,decide_eq_true_eq,ge_iff_le] at met ⊢
    omega) tip inv.prevotedHeld
  have precommitedHeld := heldAfter checked es (fun i => meetsPrecommit (P i.height) i) (fun ok eq met => by
    have grows := ok.precommits
    simp only [eq,meetsPrecommit,decide_eq_true_eq,ge_iff_le] at met ⊢
    omega) (ordered.trans tip) inv.precommitedHeld
  have fit : v.maxHeightPrevoted ≤ g+(n::chain).length := by simp only [length_cons]; omega
  obtain ⟨prevotedUp,prevotedTop,prevotedHeld',prevotedFrom⟩ := newestMeeting window
    (fun i => meetsPrevote (P i.height) i) fit prevotedHeld applied.prevotedHeight
  obtain ⟨precommitedUp,_,precommitedHeld',precommitedFrom⟩ := newestMeeting window
    (fun i => meetsPrecommit (P i.height) i) (ordered.trans fit) precommitedHeld applied.precommitedHeight
  refine ⟨⟨window,small,goodAt,?_,?_,fun a info hit => activeAfter inv checked applied hit,prevotedTop,prevotedHeld',
    precommitedHeld',inv.genesis.trans precommitedUp,?_,?_,?_,?_⟩,prevotedUp,precommitedUp⟩
  · intro y mem
    rcases mem_cons.mp mem with rfl | old
    · rw [checked.prevoted]; exact prevotedUp
    · exact (inv.acknowledged y old).trans prevotedUp
  · intro i' mem
    obtain ⟨_,_,ok⟩ := es i' mem
    exact ok.tallied
  · rcases precommitedFrom with same | ⟨i',mem,met,eq⟩
    · rw [same]; exact ordered.trans prevotedUp
    · obtain ⟨_,_,ok⟩ := es i' mem
      obtain ⟨S,T,tallied⟩ := ok.tallied
      have bounds := window.bounds mem
      rw [← eq]
      exact prevotedTop i' mem (tallied.prevoteMet (wf _ (goodAt i'.height bounds.1 bounds.2)) met)
  · rcases prevotedFrom with same | ⟨i',mem,_,eq⟩
    · rw [same]; exact fit
    · rw [← eq]; exact (window.bounds mem).2
  · intro t low reached
    rcases lt_or_ge v.maxHeightPrevoted t with new | old
    · rcases prevotedFrom with same | ⟨i',mem,met,eq⟩
      · omega
      obtain ⟨_,_,ok⟩ := es i' mem
      obtain ⟨S,T,tallied⟩ := ok.tallied
      exact evidenceNew inv checked tallied met (window.bounds mem).2 new (by omega)
    · exact evidenceGrows checked inv.window.consecutive (inv.prevoteEvidence t low old)
  · intro above
    rcases precommitedFrom with same | ⟨i',mem,met,eq⟩
    · rw [same] at above ⊢
      obtain ⟨voters,quorum,traced⟩ := inv.precommitEvidence above
      exact ⟨voters,quorum,fun a inside => precommittedMono n (traced a inside)⟩
    · obtain ⟨_,_,ok⟩ := es i' mem
      obtain ⟨S,T,tallied⟩ := ok.tallied
      simp only [meetsPrecommit,decide_eq_true_eq,ge_iff_le] at met
      rw [← eq]
      exact ⟨T,tallied.precommitWeight ▸ met,tallied.precommitted⟩

end
end LiskEngine.Liskbft
