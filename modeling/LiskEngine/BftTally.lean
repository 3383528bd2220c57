import LiskEngine.BftParams
import LiskEngine.WeightedQuorum

/-! What one header adds to the window: which entries receive its prevote and
its precommit, and how the active validators and the maximal heights move. -/
namespace LiskEngine.Liskbft
open Contradiction Diffdb List Bool

def weightOf (p : BFTParams) (address : Bytes) : Nat :=
  WeightedQuorum.keyWeight BFTValidator.address BFTValidator.bftWeight p.validators address

def totalWeight (p : BFTParams) : Nat := WeightedQuorum.total BFTValidator.bftWeight p.validators

def IsValidator (p : BFTParams) (address : Bytes) : Prop := (BFTValidator.find p.validators address).isSome

theorem weightOfFound (hit : BFTValidator.find p.validators address = some v) : weightOf p address = v.bftWeight := by
  unfold weightOf WeightedQuorum.keyWeight
  unfold BFTValidator.find at hit
  rw [hit]
  rfl

def withPrevote (p : BFTParams) (generator : Bytes) (i : BFTBlockHeader) : BFTBlockHeader :=
  {i with prevoteWeight := u64 (i.prevoteWeight + weightOf p generator)}

def withPrecommit (p : BFTParams) (generator : Bytes) (i : BFTBlockHeader) : BFTBlockHeader :=
  {i with precommitWeight := u64 (i.precommitWeight + weightOf p generator)}

abbrev Descending (infos : List BFTBlockHeader) : Prop := infos.Pairwise (fun a b => b.height < a.height)

theorem Descending.found (sorted : Descending infos) (hit : infos.find? p = some top) (mem : i ∈ infos) (met : p i = true) :
    i.height ≤ top.height := by
  obtain ⟨_,before,after,split,skipped⟩ := find?_eq_some_iff_append.mp hit
  rw [split] at mem sorted
  rcases mem_append.mp mem with early | later
  · exact absurd met (by simpa using skipped i early)
  · rcases mem_cons.mp later with rfl | behind
    · exact le_refl _
    · exact ((pairwise_cons.mp (pairwise_append.mp sorted).2.1).1 i behind).le

theorem Descending.below (sorted : Descending (info::rest)) (under : info.height < low) : ∀ i ∈ info::rest, i.height < low :=
  forall_mem_cons.mpr ⟨under,fun i mem => ((pairwise_cons.mp sorted).1 i mem).trans under⟩

theorem mapUnmet {xs : List α} {p : α → Prop} [DecidablePred p] {f : α → α} (unmet : ∀ i ∈ xs, ¬p i) :
    xs = xs.map (fun i => if p i then f i else i) :=
  (map_id _).symm.trans (map_congr_left (fun i mem => by rw [if_neg (unmet i mem)]; rfl))

namespace BFTVotes
section
variable {c : BftParamsCache} {P : Nat → BFTParams} {generator : Bytes}

theorem addPrevotesSpec (known : ∀ i ∈ infos, c.getParameters i.height = .ok (P i.height))
    (sorted : Descending infos) (ok : addPrevotes c generator low infos = .ok out) :
    out = infos.map (fun i => if low ≤ i.height then withPrevote (P i.height) generator i else i) ∧
      ∀ i ∈ infos, low ≤ i.height → IsValidator (P i.height) generator := by
  induction infos generalizing out with
  | nil => cases ok; simp
  | cons info rest ih =>
    have tail := sorted.tail
    unfold addPrevotes at ok
    split at ok
    · rename_i under
      cases ok
      have low' : ∀ i ∈ info::rest, ¬ low ≤ i.height := fun i mem => not_le.mpr (sorted.below (by omega) i mem)
      exact ⟨mapUnmet low',fun i mem atLeast => absurd atLeast (low' i mem)⟩
    · rename_i reached
      rw [known info (by simp)] at ok
      simp only [bind,Except.bind] at ok
      split at ok
      · cases ok
      rename_i v hit
      obtain ⟨infos,added,ok⟩ := bindOk ok
      cases ok
      obtain ⟨eq,vals⟩ := ih (fun i mem => known i (.tail _ mem)) tail added
      refine ⟨?_,?_⟩
      · rw [map_cons,if_pos (by omega),eq,withPrevote,weightOfFound hit]
      intro i mem atLeast
      rcases mem_cons.mp mem with rfl | later
      · simp [IsValidator,hit]
      · exact vals i later atLeast

def Precommits (P : Nat → BFTParams) (low : Nat) (i : BFTBlockHeader) : Prop :=
  low ≤ i.height ∧ (P i.height).prevoteThreshold ≤ i.prevoteWeight

instance (P : Nat → BFTParams) (low : Nat) (i : BFTBlockHeader) : Decidable (Precommits P low i) :=
  inferInstanceAs (Decidable (_ ∧ _))

theorem addPrecommitsSpec (known : ∀ i ∈ infos, c.getParameters i.height = .ok (P i.height))
    (sorted : Descending infos) (ok : addPrecommits c generator low has active infos = .ok (out,active')) :
    out = infos.map (fun i => if Precommits P low i then withPrecommit (P i.height) generator i else i) ∧
      (∀ i ∈ infos, Precommits P low i → IsValidator (P i.height) generator) ∧
      active' = if has then active else match infos.find? (fun i => Precommits P low i) with
        | none => active
        | some i => setLargestHeightPrecommit generator i.height active := by
  induction infos generalizing out has active with
  | nil => cases ok; simp
  | cons info rest ih =>
    have tail := sorted.tail
    unfold addPrecommits at ok
    split at ok
    · rename_i under
      cases ok
      have absent : ∀ i ∈ info::rest, ¬ Precommits P low i := fun i mem given =>
        absurd given.1 (not_le.mpr (sorted.below (by omega) i mem))
      refine ⟨mapUnmet absent,fun i mem given => absurd given (absent i mem),?_⟩
      rw [find?_eq_none.mpr (fun i mem => by simpa using absent i mem)]
      simp
    · rename_i reached
      rw [known info (by simp)] at ok
      simp only [bind,Except.bind] at ok
      split at ok
      · rename_i quorum
        have given : Precommits P low info := ⟨by omega,quorum⟩
        split at ok
        · cases ok
        rename_i v hit
        obtain ⟨⟨infos,last⟩,added,ok⟩ := bindOk ok
        cases ok
        obtain ⟨eq,vals,moved⟩ := ih (fun i mem => known i (.tail _ mem)) tail added
        refine ⟨?_,?_,?_⟩
        · rw [map_cons,if_pos given,eq,withPrecommit,weightOfFound hit]
        · intro i mem given'
          rcases mem_cons.mp mem with rfl | later
          · simp [IsValidator,hit]
          · exact vals i later given'
        · rw [moved]
          simp [given]
      · rename_i missing
        have skipped : ¬ Precommits P low info := fun h => missing h.2
        obtain ⟨⟨infos,last⟩,added,ok⟩ := bindOk ok
        cases ok
        obtain ⟨eq,vals,moved⟩ := ih (fun i mem => known i (.tail _ mem)) tail added
        refine ⟨?_,?_,?_⟩
        · rw [map_cons,if_neg skipped,eq]
        · intro i mem given'
          rcases mem_cons.mp mem with rfl | later
          · exact absurd given' skipped
          · exact vals i later given'
        · rw [moved]
          simp [skipped]

theorem firstMeetingSpec (known : ∀ i ∈ infos, c.getParameters i.height = .ok (P i.height))
    (ok : firstMeeting c meets infos = .ok r) : r = (infos.find? (fun i => meets (P i.height) i)).map (·.height) := by
  induction infos with
  | nil => cases ok; rfl
  | cons info rest ih =>
    unfold firstMeeting at ok
    rw [known info (by simp)] at ok
    simp only [bind,Except.bind] at ok
    split at ok
    · rename_i met
      cases ok
      simp [met]
    · rename_i missed
      rw [ih (fun i mem => known i (.tail _ mem)) ok]
      simp [missed]

end

theorem findSetLargest (generator : Bytes) (height : Nat) (active : List ActiveValidator) (addr : Bytes) :
    ActiveValidator.find (setLargestHeightPrecommit generator height active) addr = if addr = generator then
        (ActiveValidator.find active addr).map (fun a => {a with largestHeightPrecommit := height})
      else ActiveValidator.find active addr := by
  unfold ActiveValidator.find
  induction active with
  | nil => simp [setLargestHeightPrecommit]
  | cons a rest ih =>
    unfold setLargestHeightPrecommit
    by_cases own : a.address = generator
    · rw [if_pos own]
      by_cases same : addr = generator
      · simp [own,same]
      · have other : a.address ≠ addr := fun eq => same (eq.symm.trans own)
        simp [other,same]
    · rw [if_neg own]
      by_cases here : a.address = addr
      · have other : addr ≠ generator := fun eq => own (here.trans eq)
        simp [here,other]
      · rw [find?_cons_of_neg (by simpa using here),find?_cons_of_neg (by simpa using here)]
        exact ih

def recordVotes (P : Nat → BFTParams) (generator : Bytes) (prevoted precommitted : BFTBlockHeader → Bool)
    (i : BFTBlockHeader) : BFTBlockHeader :=
  {i with
    prevoteWeight := if prevoted i then u64 (i.prevoteWeight + weightOf (P i.height) generator) else i.prevoteWeight
    precommitWeight :=
      if precommitted i then u64 (i.precommitWeight + weightOf (P i.height) generator) else i.precommitWeight}

structure Voted (P : Nat → BFTParams) (newInfo : BFTBlockHeader) (active active' : List ActiveValidator)
    (window window' : List BFTBlockHeader) (prevoted precommitted : BFTBlockHeader → Bool) : Prop where
  infos : window' = window.map (recordVotes P newInfo.generatorAddress prevoted precommitted)
  prevotes : ∀ i ∈ window, prevoted i = true →
    newInfo.maxHeightGenerated < newInfo.height ∧ u32 (newInfo.maxHeightGenerated + 1) ≤ i.height ∧
      IsValidator (P i.height) newInfo.generatorAddress
  precommits : ∀ i ∈ window, precommitted i = true →
    newInfo.maxHeightGenerated < newInfo.height ∧ (P i.height).prevoteThreshold ≤ i.prevoteWeight ∧
      u32 (getHeightNotPrevoted window newInfo + 1) ≤ i.height ∧
      (∃ a, ActiveValidator.find active newInfo.generatorAddress = some a ∧
        u32 (a.largestHeightPrecommit + 1) ≤ i.height) ∧
      IsValidator (P i.height) newInfo.generatorAddress
  others : ∀ address, address ≠ newInfo.generatorAddress →
    ActiveValidator.find active' address = ActiveValidator.find active address
  own : ∀ a', ActiveValidator.find active' newInfo.generatorAddress = some a' →
    ∃ a, ActiveValidator.find active newInfo.generatorAddress = some a ∧
      (a' = a ∧ (∀ i ∈ window, precommitted i = false) ∨
        ∃ i ∈ window, precommitted i = true ∧ a'.largestHeightPrecommit = i.height ∧
          ∀ j ∈ window, precommitted j = true → j.height ≤ i.height)

theorem votedNothing (P : Nat → BFTParams) (newInfo : BFTBlockHeader) (active : List ActiveValidator)
    (window : List BFTBlockHeader) : Voted P newInfo active active window window (fun _ => false) (fun _ => false) := by
  refine ⟨?_,by simp,by simp,fun _ _ => rfl,fun a' hit => ⟨a',hit,Or.inl ⟨rfl,by simp⟩⟩⟩
  exact (map_id _).symm.trans (map_congr_left (fun i _ => by simp [recordVotes]))

theorem updatePrevotesPrecommitsSpec {c P} {v v' : BFTVotes} {newInfo rest} (window : v.blockBFTInfos = newInfo::rest)
    (known : ∀ i ∈ v.blockBFTInfos, c.getParameters i.height = .ok (P i.height)) (sorted : Descending v.blockBFTInfos)
    (ok : v.updatePrevotesPrecommits c = .ok v') :
    ∃ prevoted precommitted, Voted P newInfo v.activeValidatorsVoteInfo v'.activeValidatorsVoteInfo
      v.blockBFTInfos v'.blockBFTInfos prevoted precommitted ∧
      v' = {v with blockBFTInfos := v'.blockBFTInfos, activeValidatorsVoteInfo := v'.activeValidatorsVoteInfo} := by
  unfold updatePrevotesPrecommits at ok
  rw [window] at ok
  simp only at ok
  split at ok
  · cases ok
    exact ⟨_,_,votedNothing P newInfo _ _,rfl⟩
  rename_i votes
  split at ok
  · cases ok
    exact ⟨_,_,votedNothing P newInfo _ _,rfl⟩
  rename_i validatorInfo activeFound
  rw [← window] at ok
  obtain ⟨⟨infos,active⟩,precommitted,ok⟩ := bindOk ok
  obtain ⟨infos',prevoted,ok⟩ := bindOk ok
  cases ok
  obtain ⟨eq,vals,moved⟩ := addPrecommitsSpec known sorted precommitted
  generalize lowEq : max validatorInfo.minActiveHeight _ = low at eq vals moved
  have same : ∀ i, (if Precommits P low i then withPrecommit (P i.height) newInfo.generatorAddress i else i).height =
      i.height := fun i => by split <;> rfl
  have known' : ∀ i ∈ infos, c.getParameters i.height = .ok (P i.height) := by
    intro i mem
    rw [eq] at mem
    obtain ⟨j,inside,rfl⟩ := mem_map.mp mem
    rw [same]
    exact known j inside
  have sorted' : Descending infos := by
    rw [eq,Descending,pairwise_map]
    simpa only [same] using sorted
  obtain ⟨eq',vals'⟩ := addPrevotesSpec known' sorted' prevoted
  generalize lowEq' : max (u32 (newInfo.maxHeightGenerated+1)) _ = low' at eq' vals'
  refine ⟨fun i => decide (low' ≤ i.height),fun i => decide (Precommits P low i),?_,rfl⟩
  refine ⟨?_,?_,?_,?_,?_⟩
  · simp only
    rw [eq',eq,map_map]
    refine map_congr_left (fun i _ => ?_)
    by_cases high : low' ≤ i.height <;> by_cases given : Precommits P low i <;>
      simp [high,given,recordVotes,withPrecommit,withPrevote]
  · intro i mem high
    have high : low' ≤ i.height := by simpa using high
    refine ⟨by omega,by omega,?_⟩
    have := vals' (if Precommits P low i then withPrecommit (P i.height) newInfo.generatorAddress i else i)
      (by rw [eq]; exact mem_map_of_mem (f := fun i => if Precommits P low i then
        withPrecommit (P i.height) newInfo.generatorAddress i else i) mem) (by rw [same]; exact high)
    rw [same] at this
    exact this
  · intro i mem given
    have given : Precommits P low i := by simpa using given
    have high := given.1
    exact ⟨by omega,given.2,by omega,⟨validatorInfo,activeFound,by omega⟩,vals i mem given⟩
  · intro addr other
    simp only [moved,false_eq_true,if_false]
    split
    · rfl
    · rw [findSetLargest,if_neg other]
  · intro a' hit
    simp only [moved,false_eq_true,if_false] at hit
    cases first : v.blockBFTInfos.find? (fun i => decide (Precommits P low i)) with
    | none =>
      rw [first] at hit
      have absent := find?_eq_none.mp first
      exact ⟨a',hit,Or.inl ⟨rfl,fun i mem => by simpa using absent i mem⟩⟩
    | some i =>
      rw [first] at hit
      simp only [findSetLargest,if_true,Option.map_eq_some_iff] at hit
      obtain ⟨a,original,rfl⟩ := hit
      obtain ⟨given,_⟩ := find?_eq_some_iff_append.mp first
      exact ⟨a,original,Or.inr ⟨i,mem_of_find?_eq_some first,given,rfl,fun j mem also => sorted.found first mem also⟩⟩

end BFTVotes
end LiskEngine.Liskbft
