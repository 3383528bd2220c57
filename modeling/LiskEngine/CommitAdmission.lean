import LiskEngine.ChainOfTrust
import LiskEngine.CommitPool

/-! Two rules for the heights of single commits: what a message may add to the pool and what
a broadcast keeps in it. -/
namespace LiskEngine.Consensus
open Liskbft List
open Codec (Normalizer)

def discardsHeight (state : ChainState) (maxHeightPrecommited height : Nat) : Bool :=
  (height < u32 (maxHeightPrecommited + 2 ^ 32 - commitRangeStored) ∨ height > maxHeightPrecommited) ∧
    !existBFTParameters state.store height

def InStoredRange (maxHeightPrecommited height : Nat) : Prop :=
  (maxHeightPrecommited : Int) - commitRangeStored ≤ height ∧ (height : Int) ≤ maxHeightPrecommited

section
variable {c : Engine} {bls : SingleBls} {state : ChainState} {prevoted m certified : Nat} {header : BlockHeader}
  (heights : API.getBFTHeights state.store = .ok (prevoted, m, certified))
  (fin : getBlockHeaderByHeight state.blocks m = .ok header)
include heights fin

theorem admittedHeight (checked : checkSingleCommit c bls state commit = .ok true) :
    getMaxRemovalHeight header < commit.height ∧ discardsHeight state m commit.height = false := by
  unfold checkSingleCommit at checked
  rw [heights] at checked
  dsimp only at checked
  rw [fin] at checked
  dsimp only at checked
  split at checked
  · cases checked
  rename_i above
  split at checked
  · cases checked
  · rename_i inside
    exact ⟨Nat.lt_of_not_le above,decide_eq_false inside⟩

theorem discardedHeight (above : getMaxRemovalHeight header < commit.height)
    (discards : discardsHeight state m commit.height = true) : checkSingleCommit c bls state commit = .ok false := by
  unfold checkSingleCommit
  rw [heights]
  dsimp only
  rw [fin]
  dsimp only
  rw [if_neg (Nat.not_le_of_lt above),if_pos (of_decide_eq_true discards)]

end

theorem messageAdds (c : Engine) (bls : SingleBls) (state : ChainState) (commits : List SingleCommit) (pool : Pool) :
    ∃ added, (singleCommitLoop c bls state pool commits).1.commits = pool.commits ++ added ∧
      ∀ commit ∈ added, checkSingleCommit c bls state commit = .ok true := by
  have nothing : ∀ pool : Pool, ∃ added, pool.commits = pool.commits ++ added ∧
      ∀ commit ∈ added, checkSingleCommit c bls state commit = .ok true := fun pool => ⟨[],by simp,by simp⟩
  induction commits generalizing pool with
  | nil => exact nothing pool
  | cons commit rest ih =>
    rw [singleCommitLoop]
    split
    · exact nothing pool
    split
    · exact ih pool
    split
    · exact nothing pool
    · exact ih pool
    rename_i checked
    obtain ⟨added,later,each⟩ := ih (pool.add commit)
    refine ⟨commit::added,?_,forall_mem_cons.mpr ⟨checked,each⟩⟩
    rw [later]
    simp [Pool.commits,Pool.add]

theorem validatorAdds (c : Engine) (bls : SingleBls) (state : ChainState) (text : Normalizer) (pool : Pool) (data : Bytes) :
    ∃ added, (singleCommitValidator c bls state text pool data).1.commits = pool.commits ++ added ∧
      ∀ commit ∈ added, checkSingleCommit c bls state commit = .ok true := by
  unfold singleCommitValidator
  split
  · exact ⟨[],by simp,by simp⟩
  · exact messageAdds c bls state _ pool

theorem storedRangeStart (word : m ≤ maxUint32) :
    u32 (m+2^32-commitRangeStored) = if commitRangeStored ≤ m then m-commitRangeStored else m+2^32-commitRangeStored := by
  unfold u32 commitRangeStored
  unfold maxUint32 at word
  split <;> omega

theorem keepsHeightIff (word : m ≤ maxUint32) (above : removeHeight < h) : keepsHeight state m removeHeight h = true ↔
      existBFTParameters state.store (u32 (h+1)) = true ∨ commitRangeStored ≤ m ∧ m ≤ h+commitRangeStored ∧ h < m := by
  have inRange : (u32 (m+2^32-commitRangeStored) ≤ h ∧ h < m) ↔ commitRangeStored ≤ m ∧ m ≤ h+commitRangeStored ∧ h < m := by
    rw [storedRangeStart word]
    unfold commitRangeStored
    split <;> omega
  unfold keepsHeight
  rw [if_neg (Nat.not_le_of_lt above),← inRange]
  cases existBFTParameters state.store (u32 (h+1)) <;> simp

theorem discardsHeightIff (word : m ≤ maxUint32) (h : Nat) : discardsHeight state m h = true ↔
      existBFTParameters state.store h = false ∧ (m < commitRangeStored ∨ ¬InStoredRange m h) := by
  have out : (h < u32 (m+2^32-commitRangeStored) ∨ h > m) ↔ (m < commitRangeStored ∨ ¬InStoredRange m h) := by
    rw [storedRangeStart word]
    unfold InStoredRange commitRangeStored
    split <;> omega
  unfold discardsHeight
  rw [decide_eq_true_iff,out,Bool.not_eq_true',and_comm]

theorem admissionKeptIff (c : Engine) (bls : SingleBls) (text : Normalizer) {state : ChainState} {prevoted m certified : Nat}
    {header : BlockHeader} (heights : API.getBFTHeights state.store = .ok (prevoted, m, certified)) (word : m ≤ maxUint32)
    (finalized : getBlockHeaderByHeight state.blocks m = .ok header) (pool : Pool) (data : Bytes) :
    (∃ added, (singleCommitValidator c bls state text pool data).1.commits = pool.commits ++ added ∧
      ∀ commit ∈ added, discardsHeight state m commit.height = false ∧
        (keepsHeight state m (getMaxRemovalHeight header) commit.height = true ↔
          existBFTParameters state.store (u32 (commit.height + 1)) = true ∨
            commitRangeStored ≤ m ∧ m ≤ commit.height + commitRangeStored ∧ commit.height < m)) ∧
    (∀ commit, getMaxRemovalHeight header < commit.height → discardsHeight state m commit.height = true →
      checkSingleCommit c bls state commit = .ok false) ∧
    ∀ k, ((discardsHeight state m k = true ↔ existBFTParameters state.store k = false ∧ ¬InStoredRange m k) ↔
      commitRangeStored ≤ m ∨ existBFTParameters state.store k = true ∨ m < k) := by
  refine ⟨?_,fun commit => discardedHeight heights finalized,fun k => ?_⟩
  · obtain ⟨added,adds,checked⟩ := validatorAdds c bls state text pool data
    refine ⟨added,adds,fun commit member => ?_⟩
    obtain ⟨above,inside⟩ := admittedHeight heights finalized (checked commit member)
    exact ⟨inside,keepsHeightIff word above⟩
  · rw [discardsHeightIff word]
    unfold InStoredRange commitRangeStored
    cases existBFTParameters state.store k
    · simp only [true_and,Bool.false_eq_true,false_or]
      omega
    · simp

def wideHeader (id : UInt8) (height maxHeightPrevoted maxHeightGenerated : Nat) (previous : Bytes) : BlockHeader :=
  {sampleHeader 0 height (10 * height) 0 0 maxHeightPrevoted maxHeightGenerated with
    id := List.replicate 32 id, previousBlockID := previous, generatorAddress := List.replicate 20 1}

def sampleWideChain : ChainState :=
  sampleChain
    [.setBFTParameters 1 1 [⟨List.replicate 20 1,1,List.replicate 96 1⟩],.setGeneratorKeys [⟨List.replicate 20 1,[]⟩],.commit,
      .block 100 (wideHeader 1 1 0 0 [0]),.commit,.block 100 (wideHeader 2 2 1 1 (List.replicate 32 1)),.commit,
      .block 100 (wideHeader 3 3 2 2 (List.replicate 32 2)),.commit]

def sampleCommitMessage (id height : UInt8) : Bytes :=
  [10,156,1] ++ ([10,32] ++ List.replicate 32 id ++ [16,height] ++ [26,20] ++ List.replicate 20 1 ++ [34,96] ++ List.replicate 96 1)

theorem sampleWideHeights : API.getBFTHeights sampleWideChain.store = .ok (3,2,0) := by decide +kernel

theorem sampleWideFinalized :
    getBlockHeaderByHeight sampleWideChain.blocks 2 = .ok (wideHeader 2 2 1 1 (List.replicate 32 1)) := by decide +kernel

def sampleSingleBls : SingleBls := ⟨fun _ sk => sk,fun _ signature key => signature = key⟩

theorem admissionKeptSample :
    (singleCommitValidator sampleEngine sampleSingleBls sampleWideChain ⟨fun _ => true, id, fun _ _ => rfl⟩ Pool.new
        (sampleCommitMessage 1 1)).1.commits.map (·.height) = [1] ∧
      (∃ added, (singleCommitValidator sampleEngine sampleSingleBls sampleWideChain ⟨fun _ => true, id, fun _ _ => rfl⟩ Pool.new
          (sampleCommitMessage 1 1)).1.commits = Pool.new.commits ++ added ∧
        ∀ commit ∈ added, discardsHeight sampleWideChain 2 commit.height = false ∧
          (keepsHeight sampleWideChain 2 0 commit.height = true ↔
            existBFTParameters sampleWideChain.store (u32 (commit.height + 1)) = true ∨
              commitRangeStored ≤ 2 ∧ 2 ≤ commit.height + commitRangeStored ∧ commit.height < 2)) :=
  ⟨by decide +kernel,(admissionKeptIff sampleEngine sampleSingleBls .plain sampleWideHeights (by decide)
    sampleWideFinalized Pool.new (sampleCommitMessage 1 1)).1⟩

theorem addedNotKept :
    ((singleCommitValidator sampleEngine sampleSingleBls sampleWideChain
        ⟨fun _ => true, id, fun _ _ => rfl⟩ Pool.new (sampleCommitMessage 1 1)).1.commits.map (·.height) = [1] ∧
      keepsHeight sampleWideChain 2 (getMaxRemovalHeight (wideHeader 2 2 1 1 (List.replicate 32 1))) 1 = false) ∧
    discardsHeight sampleWideChain 2 2 = true ∧ InStoredRange 2 2 := by
  refine ⟨⟨by decide +kernel,by decide +kernel⟩,by decide +kernel,?_⟩
  unfold InStoredRange commitRangeStored
  decide

end LiskEngine.Consensus
