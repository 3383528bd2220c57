import LiskEngine.BftTally

/-! The window as the newest part of a chain of consecutive headers, and the walk back along
a generator's own headers that bounds its precommits. -/
namespace LiskEngine.Liskbft
open Contradiction List Option

def Consecutive (g : Nat) : List BlockHeader → Prop
  | [] => True
  | b :: rest => b.height = g + rest.length + 1 ∧ Consecutive g rest

theorem consecutiveAt (consec : Consecutive g chain) (hit : chain[j]? = some b) : b.height+j = g+chain.length := by
  induction chain generalizing j with
  | nil => simp at hit
  | cons head rest ih =>
    cases j with
    | zero => cases hit; have := consec.1; simp; omega
    | succ j => have := ih consec.2 (by simpa using hit); simp; omega

theorem consecutiveAbove (consec : Consecutive g chain) (mem : b ∈ chain) : g < b.height ∧ b.height ≤ g+chain.length := by
  obtain ⟨j,hit⟩ := getElem?_of_mem mem
  have position := consecutiveAt consec hit
  have inside : j < chain.length := (List.getElem?_eq_some_iff.mp hit).1
  omega

structure Window (g : Nat) (chain : List BlockHeader) (infos : List BFTBlockHeader) : Prop where
  consecutive : Consecutive g chain
  listed : infos.map BFTBlockHeader.partialHeader = (chain.take infos.length).map newBFTBlockHeader
  started : chain ≠ [] → infos ≠ []

namespace Window
variable {g : Nat} {chain : List BlockHeader} {infos : List BFTBlockHeader}

section
variable (w : Window g chain infos)
include w

theorem lengthLe : infos.length ≤ chain.length := by
  have := congrArg length w.listed
  simp only [length_map,length_take] at this
  omega

theorem source {j : Nat} {i} (hit : infos[j]? = some i) : ∃ b, chain[j]? = some b ∧ i.partialHeader = newBFTBlockHeader b := by
  have inside : j < infos.length := (List.getElem?_eq_some_iff.mp hit).1
  have pointwise := congrArg (·[j]?) w.listed
  simp only [getElem?_map,hit,map_some,getElem?_take,inside,if_true] at pointwise
  obtain ⟨b,there,eq⟩ := map_eq_some_iff.mp pointwise.symm
  exact ⟨b,there,eq.symm⟩

theorem heightAt {j : Nat} {i} (hit : infos[j]? = some i) : i.height+j = g+chain.length := by
  obtain ⟨b,there,eq⟩ := w.source hit
  have same : i.height = b.height := congrArg BFTPartialBlockHeader.height eq
  rw [same]
  exact consecutiveAt w.consecutive there

theorem memberOf {i : BFTBlockHeader} (mem : i ∈ infos) : ∃ b ∈ chain, i.partialHeader = newBFTBlockHeader b := by
  obtain ⟨j,hit⟩ := getElem?_of_mem mem
  obtain ⟨b,there,eq⟩ := w.source hit
  exact ⟨b,mem_of_getElem? there,eq⟩

theorem bounds (mem : i ∈ infos) : g < i.height ∧ i.height ≤ g+chain.length := by
  obtain ⟨b,there,eq⟩ := w.memberOf mem
  have same : i.height = b.height := congrArg BFTPartialBlockHeader.height eq
  rw [same]
  exact consecutiveAbove w.consecutive there

theorem descending : Descending infos := by
  rw [Descending,pairwise_iff_getElem]
  intro j k hj hk inside
  have first := w.heightAt (getElem?_eq_getElem hj)
  have second := w.heightAt (getElem?_eq_getElem hk)
  omega

theorem unique (left : i ∈ infos) (right : j ∈ infos) (same : i.height = j.height) : i = j := by
  obtain ⟨a,foundA⟩ := getElem?_of_mem left
  obtain ⟨b,foundB⟩ := getElem?_of_mem right
  have first := w.heightAt foundA
  have second := w.heightAt foundB
  have index : a = b := by omega
  subst index
  exact some.inj (foundA.symm.trans foundB)

theorem upward {i : BFTBlockHeader} (mem : i ∈ infos) {b} (inChain : b ∈ chain) (above : i.height ≤ b.height) :
    ∃ j ∈ infos, j.partialHeader = newBFTBlockHeader b := by
  obtain ⟨k,hit⟩ := getElem?_of_mem mem
  obtain ⟨l,there⟩ := getElem?_of_mem inChain
  have entry := w.heightAt hit
  have block := consecutiveAt w.consecutive there
  have inside : l < infos.length := by
    have := (List.getElem?_eq_some_iff.mp hit).1
    omega
  obtain ⟨b',there',eq⟩ := w.source (getElem?_eq_getElem inside)
  rw [there] at there'
  cases there'
  exact ⟨_,getElem_mem inside,eq⟩

theorem atHeight (mem : i ∈ infos) (above : i.height ≤ k) (fit : k ≤ g+chain.length) : ∃ j ∈ infos, j.height = k := by
  obtain ⟨n,hit⟩ := List.getElem?_of_mem mem
  have entry := w.heightAt hit
  have size := (List.getElem?_eq_some_iff.mp hit).1
  have inside : g+chain.length-k < infos.length := by omega
  have here := w.heightAt (List.getElem?_eq_getElem inside)
  exact ⟨_,List.getElem_mem inside,by omega⟩

theorem push (height : n.height = g+chain.length+1) (room : Nat) : Window g (n::chain) (newBlockBFTInfo n::infos.take room) := by
  refine ⟨⟨height,w.consecutive⟩,?_,fun _ => by simp⟩
  have cut := congrArg (take room) w.listed
  simp only [← map_take,take_take] at cut
  simp only [map_cons,length_cons,length_take,take_succ_cons]
  exact congrArg₂ cons rfl cut

theorem congr (same : infos'.map BFTBlockHeader.partialHeader = infos.map BFTBlockHeader.partialHeader) : Window g chain infos' := by
  have size : infos'.length = infos.length := by simpa using congrArg length same
  refine ⟨w.consecutive,by rw [same,size]; exact w.listed,fun found absent => w.started found ?_⟩
  rw [absent] at size
  exact eq_nil_of_length_eq_zero size.symm

theorem newestOf (mem : i ∈ infos) (own : i.generatorAddress = address) :
    ∃ b ∈ infos, infos.find? (·.generatorAddress = address) = some b ∧ i.height ≤ b.height := by
  cases hit : infos.find? (·.generatorAddress = address) with
  | none => exact absurd own (by simpa using find?_eq_none.mp hit i mem)
  | some b => exact ⟨b,mem_of_find?_eq_some hit,rfl,w.descending.found hit mem (decide_eq_true own)⟩

theorem oldest (mem : i ∈ infos) (final : infos.getLast? = some last) : last.height ≤ i.height := by
  obtain ⟨j,hit⟩ := List.getElem?_of_mem mem
  have size := (List.getElem?_eq_some_iff.mp hit).1
  have entry := w.heightAt hit
  rw [List.getLast?_eq_getElem?] at final
  have bottom := w.heightAt final
  omega

end

end Window

/-- Walking back from a header along the generator's own headers, each at the
height the one before acknowledges, ends below the given height. -/
inductive Acknowledges (chain : List BlockHeader) (k : Nat) : BlockHeader → Prop where
  | base {x} (lower : x.maxHeightGenerated < k) : Acknowledges chain k x
  | back {x z} (member : z ∈ chain) (own : z.generatorAddress = x.generatorAddress)
      (acknowledged : z.height = x.maxHeightGenerated) (rest : Acknowledges chain k z) : Acknowledges chain k x

theorem acknowledgesMono (walk : Acknowledges chain k x) : Acknowledges (n::chain) k x := by
  induction walk with
  | base lower => exact .base lower
  | back mem own acknowledged _ ih => exact .back (.tail _ mem) own acknowledged ih

theorem leaveWindow (w : Window g chain infos) (newest : top = g+chain.length)
    (small : g+chain.length < maxUint32) (ne : infos ≠ []) (lower : height < top) (out : infos.length ≤ top-height)
    (bound : u32 (u32 ((infos.getLast?.map (·.height)).getD 0+maxUint32)+1) ≤ k) : height < k := by
  cases final : infos.getLast? with
  | none => exact absurd (getLast?_eq_none_iff.mp final) ne
  | some last =>
    rw [final] at bound
    rw [getLast?_eq_getElem?] at final
    have bottom := w.heightAt final
    simp only [map_some,getD_some,u32,maxUint32] at bound small
    omega

theorem walkBack {g : Nat} {chain infos} (newInfo : BFTBlockHeader) (w : Window g chain infos)
    (top : newInfo.height = g+chain.length) (small : g+chain.length < maxUint32) (ne : infos ≠ []) {k turns x}
    (own : x.generatorAddress = newInfo.generatorAddress) (lower : x.maxHeightGenerated < newInfo.height)
    (enough : infos.length ≤ newInfo.height-x.maxHeightGenerated+turns)
    (bound : u32 (BFTVotes.heightNotPrevotedLoop infos newInfo turns x.maxHeightGenerated+1) ≤ k) : Acknowledges chain k x := by
  induction turns generalizing x with
  | zero => exact .base (leaveWindow w top small ne lower enough bound)
  | succ turns ih =>
    unfold BFTVotes.heightNotPrevotedLoop at bound
    cases hit : infos[newInfo.height-x.maxHeightGenerated]? with
    | none =>
      rw [hit] at bound
      exact .base (leaveWindow w top small ne lower (getElem?_eq_none_iff.mp hit) bound)
    | some info =>
      rw [hit] at bound
      simp only at bound
      split at bound
      · refine .base ?_
        have fits : u32 (x.maxHeightGenerated+1) = x.maxHeightGenerated+1 := u32Small (by unfold maxUint32 at small; omega)
        omega
      · rename_i matching
        rw [not_or,not_not] at matching
        obtain ⟨z,there,eq⟩ := w.source hit
        have position := w.heightAt hit
        have height : info.height = z.height := congrArg BFTPartialBlockHeader.height eq
        have gen : info.generatorAddress = z.generatorAddress := congrArg BFTPartialBlockHeader.generatorAddress eq
        have generated : info.maxHeightGenerated = z.maxHeightGenerated := congrArg BFTPartialBlockHeader.maxHeightGenerated eq
        have zOwn := gen ▸ matching.1
        rw [generated] at bound
        exact .back (mem_of_getElem? there) (zOwn.trans own.symm) (by omega)
          (ih zOwn (by omega) (by omega) bound)

end LiskEngine.Liskbft
