import LiskEngine.BftWindow

/-! The invariant of the vote state. Every weight in the window is the weight of a set of
voters, each of which is traced to a header of the chain; the maximal heights are those of
the newest entries with a quorum. -/
namespace LiskEngine.Liskbft
open Contradiction BFTVotes List WeightedQuorum

structure WellFormed (p : BFTParams) : Prop where
  total : totalWeight p < 9223372036854775808
  prevote : 0 < p.prevoteThreshold
  precommit : 0 < p.precommitThreshold

def votersWeight (p : BFTParams) (voters : Finset Bytes) : Nat :=
  WeightedQuorum.setWeight BFTValidator.address BFTValidator.bftWeight p.validators voters

theorem votersWeightLe (p : BFTParams) (voters : Finset Bytes) : votersWeight p voters ≤ totalWeight p :=
  setWeightLeTotal _ _ _ _

theorem votersWeightInsert (p : BFTParams) (fresh : address ∉ voters) :
    votersWeight p (insert address voters) = weightOf p address+votersWeight p voters :=
  setWeightInsert _ _ _ fresh

theorem votersWeightEmpty (p : BFTParams) : votersWeight p ∅ = 0 := by
  simp [votersWeight,setWeight]

theorem addVoter (wf : WellFormed p) (fresh : address ∉ voters) :
    u64 (votersWeight p voters+weightOf p address) = votersWeight p (insert address voters) := by
  have bound := votersWeightLe p (insert address voters)
  have total := wf.total
  rw [votersWeightInsert p fresh] at bound ⊢
  rw [u64Small (by omega)]
  omega

def PrevotedBy (p : BFTParams) (chain : List BlockHeader) (k : Nat) (address : Bytes) : Prop :=
  IsValidator p address ∧
    ∃ y ∈ chain, y.generatorAddress = address ∧ y.maxHeightGenerated < k ∧ k ≤ y.height

def PrecommittedBy (p : BFTParams) (chain : List BlockHeader) (k : Nat) (address : Bytes) : Prop :=
  IsValidator p address ∧
    ∃ x ∈ chain, x.generatorAddress = address ∧ k ≤ x.maxHeightPrevoted ∧ Acknowledges chain k x

theorem prevotedMono (n : BlockHeader) (voted : PrevotedBy p chain k address) : PrevotedBy p (n::chain) k address := by
  obtain ⟨val,y,mem,own⟩ := voted
  exact ⟨val,y,mem_cons_of_mem _ mem,own⟩

theorem precommittedMono (n : BlockHeader) (voted : PrecommittedBy p chain k address) : PrecommittedBy p (n::chain) k address := by
  obtain ⟨val,x,mem,own,prevoted,walk⟩ := voted
  exact ⟨val,x,mem_cons_of_mem _ mem,own,prevoted,acknowledgesMono walk⟩

structure Tallied (p : BFTParams) (chain : List BlockHeader) (active : List ActiveValidator) (i : BFTBlockHeader)
    (prevoters precommitters : Finset Bytes) : Prop where
  prevoteWeight : i.prevoteWeight = votersWeight p prevoters
  precommitWeight : i.precommitWeight = votersWeight p precommitters
  prevoted : ∀ a ∈ prevoters, PrevotedBy p chain i.height a
  precommitted : ∀ a ∈ precommitters, PrecommittedBy p chain i.height a
  once : ∀ a ∈ precommitters, ∀ info, ActiveValidator.find active a = some info →
    i.height ≤ info.largestHeightPrecommit
  quorum : precommitters.Nonempty → p.prevoteThreshold ≤ i.prevoteWeight

theorem talliedNew (p : BFTParams) (chain : List BlockHeader) (active : List ActiveValidator) (n : BlockHeader) :
    Tallied p chain active (newBlockBFTInfo n) ∅ ∅ := by
  constructor <;> simp [newBlockBFTInfo,votersWeight,setWeight]

section
variable {P : Nat → BFTParams} {n : BlockHeader} {chain : List BlockHeader} {active active' : List ActiveValidator}
  {window window' : List BFTBlockHeader} {prevoted precommitted : BFTBlockHeader → Bool}
  {i : BFTBlockHeader} {S T : Finset Bytes}

section
variable (voted : Voted P (newBlockBFTInfo n) active active' window window' prevoted precommitted)
  (mem : i ∈ window) (tallied : Tallied (P i.height) chain active i S T)
    (bounded : ∀ a, ActiveValidator.find active n.generatorAddress = some a → a.largestHeightPrecommit < maxUint32)
include voted mem tallied bounded

theorem precommitFresh (given : precommitted i = true) : n.generatorAddress ∉ T := by
  intro already
  obtain ⟨_,_,_,⟨a,hit,above⟩,_⟩ := voted.precommits i mem given
  have below := tallied.once _ already a hit
  have fits : u32 (a.largestHeightPrecommit+1) = a.largestHeightPrecommit+1 :=
    u32Small (by have := bounded a hit; unfold maxUint32 at this; omega)
  omega

theorem onceRecorded (counted : address ∈ T ∨ address = n.generatorAddress ∧ precommitted i = true)
    (hit : ActiveValidator.find active' address = some info) : i.height ≤ info.largestHeightPrecommit := by
  by_cases own : address = n.generatorAddress
  · subst own
    obtain ⟨a,original,⟨same,nothing⟩ | ⟨j,inside,given,largest,greatest⟩⟩ := voted.own info hit
    · rcases counted with old | ⟨_,new⟩
      · exact same ▸ tallied.once _ old a original
      · rw [nothing i mem] at new; contradiction
    · rcases counted with old | ⟨_,new⟩
      · have before := tallied.once _ old a original
        obtain ⟨_,_,_,⟨a',hit',above⟩,_⟩ := voted.precommits j inside given
        have eq : a = a' := Option.some.inj (original.symm.trans hit')
        have fits : u32 (a.largestHeightPrecommit+1) = a.largestHeightPrecommit+1 :=
          u32Small (by have := bounded a original; unfold maxUint32 at this; omega)
        rw [← eq] at above
        omega
      · have := greatest i mem new
        omega
  · rw [voted.others address own] at hit
    exact tallied.once address (counted.resolve_right (fun h => own h.1)) info hit

end

theorem talliedRecord (voted : Voted P (newBlockBFTInfo n) active active' window window' prevoted precommitted)
    (mem : i ∈ window) (wf : WellFormed (P i.height)) (tallied : Tallied (P i.height) chain active i S T)
    (bounded : ∀ a, ActiveValidator.find active n.generatorAddress = some a → a.largestHeightPrecommit < maxUint32)
    (prevoteFresh : prevoted i = true → n.generatorAddress ∉ S)
    (newPrevote : prevoted i = true → PrevotedBy (P i.height) (n::chain) i.height n.generatorAddress)
    (newPrecommit : precommitted i = true → PrecommittedBy (P i.height) (n::chain) i.height n.generatorAddress) :
    let after := recordVotes P n.generatorAddress prevoted precommitted i
    i.prevoteWeight ≤ after.prevoteWeight ∧ i.precommitWeight ≤ after.precommitWeight ∧
      ∃ S' T', Tallied (P i.height) (n::chain) active' after S' T' := by
  intro after
  let S' := if prevoted i then insert n.generatorAddress S else S
  let T' := if precommitted i then insert n.generatorAddress T else T
  have prevotes : after.prevoteWeight = votersWeight (P i.height) S' := by
    simp only [after,recordVotes,S']
    split
    · rename_i given
      rw [tallied.prevoteWeight,addVoter wf (prevoteFresh given)]
    · exact tallied.prevoteWeight
  have precommits : after.precommitWeight = votersWeight (P i.height) T' := by
    simp only [after,recordVotes,T']
    split
    · rename_i given
      rw [tallied.precommitWeight,addVoter wf (precommitFresh voted mem tallied bounded given)]
    · exact tallied.precommitWeight
  have grows : ∀ {A B : Finset Bytes}, A ⊆ B → votersWeight (P i.height) A ≤ votersWeight (P i.height) B :=
    fun sub => Finset.sum_le_sum_of_subset sub
  have prevoteGrows : i.prevoteWeight ≤ after.prevoteWeight := by
    rw [prevotes,tallied.prevoteWeight]
    refine grows ?_
    simp only [S']
    split
    · exact Finset.subset_insert _ _
    · exact Finset.Subset.refl _
  have precommitGrows : i.precommitWeight ≤ after.precommitWeight := by
    rw [precommits,tallied.precommitWeight]
    refine grows ?_
    simp only [T']
    split
    · exact Finset.subset_insert _ _
    · exact Finset.Subset.refl _
  have memT : ∀ a ∈ T', a ∈ T ∨ a = n.generatorAddress ∧ precommitted i = true := by
    intro a inside
    simp only [T'] at inside
    split at inside
    · rename_i given
      exact (Finset.mem_insert.mp inside).symm.imp_right (fun eq => ⟨eq,given⟩)
    · exact .inl inside
  refine ⟨prevoteGrows,precommitGrows,S',T',prevotes,precommits,?_,?_,?_,?_⟩
  · intro a inside
    simp only [S'] at inside
    split at inside
    · rename_i given
      rcases Finset.mem_insert.mp inside with rfl | old
      · exact newPrevote given
      · exact prevotedMono n (tallied.prevoted a old)
    · exact prevotedMono n (tallied.prevoted a inside)
  · intro a inside
    rcases memT a inside with old | ⟨rfl,given⟩
    · exact precommittedMono n (tallied.precommitted a old)
    · exact newPrecommit given
  · exact fun a inside info hit => onceRecorded voted mem tallied bounded (memT a inside) hit
  · rintro ⟨a,inside⟩
    refine le_trans ?_ prevoteGrows
    rcases memT a inside with old | ⟨_,given⟩
    · exact tallied.quorum ⟨a,old⟩
    · exact (voted.precommits i mem given).2.1

end

theorem newestMeeting (w : Window g chain infos) (meets : BFTBlockHeader → Bool) (fit : old ≤ g+chain.length)
    (held : ∀ i ∈ infos, i.height = old → meets i = true) (update : new = ((infos.find? meets).map (·.height)).getD old) :
    old ≤ new ∧ (∀ i ∈ infos, meets i = true → i.height ≤ new) ∧ (∀ i ∈ infos, i.height = new → meets i = true) ∧
      (new = old ∨ ∃ i ∈ infos, meets i = true ∧ i.height = new) := by
  cases hit : infos.find? meets with
  | none =>
    rw [hit] at update
    have absent := find?_eq_none.mp hit
    have same : new = old := update
    subst same
    exact ⟨le_refl _,fun i mem met => absurd met (absent i mem),held,Or.inl rfl⟩
  | some top =>
    rw [hit] at update
    have height : new = top.height := update
    subst height
    have inside := mem_of_find?_eq_some hit
    have met : meets top = true := find?_some hit
    have greatest : ∀ i ∈ infos, meets i = true → i.height ≤ top.height := fun i => w.descending.found hit
    refine ⟨?_,greatest,fun i mem same => ?_,Or.inr ⟨top,inside,met,rfl⟩⟩
    · by_contra below
      obtain ⟨j,mem,atOld⟩ := w.atHeight inside (k := old) (by omega) fit
      have := greatest j mem (held j mem atOld)
      omega
    · exact w.unique inside mem same.symm ▸ met

end LiskEngine.Liskbft
