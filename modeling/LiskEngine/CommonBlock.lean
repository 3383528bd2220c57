import LiskEngine.FastSync
import LiskEngine.Float64
import LiskEngine.PeerSelection

/-! The block syncer's search for a block in common with a peer. It asks for one height a round
downwards from the start of the current round, in three trials; heights are 32-bit numbers, and
a trial that has reached the finalized height leaves the chain in the next. -/
namespace LiskEngine.Sync
open Blockchain Float64 List
open Nat (sub_le)

inductive BlockSyncError (ε : Type) where
  | peer (e : PeerError)
  | syncCondition
  | invalidLastBlock (e : BlockError)
  | noPriority
  | noCommonBlock
  | runtimePanic
  | sync (e : SyncError ε)
  deriving DecidableEq, Repr

def getCommonBlockStartSearchHeight (r : Rounding) (height roundLength : Nat) : Nat :=
  let currentRound := ⌈r.round (r.round height / r.round roundLength)⌉
  if currentRound = 0 then 0
  else u32 ⌊r.round (r.round (currentRound - 1) * r.round roundLength)⌋.toNat

def getHeightWithGap (start minimum gap num : Nat) : List Nat :=
  if start ≤ minimum then [minimum]
  else ((List.range (num - 1)).takeWhile (fun i => u32 (minimum + u32 (i * gap)) ≤ start)).map
    (fun i => u32 (start + 4294967296 - u32 (i * gap)))

section
variable {ε : Type} (highestCommonBlock : Nat → List Bytes → Except ε Bytes) (ctx : SyncContext) (l : Listed)

def commonBlockTrials : Nat → Nat → Nat → List (List Nat) × Except (BlockSyncError ε) BlockHeader
  | 0, _, _ => ([], .error .noCommonBlock)
  | trials + 1, trial, startingHeight =>
    let heights := getHeightWithGap startingHeight ctx.finalizedHeight ctx.currentValidators.length 10
    let ids := heights.filterMap (fun height => (l.byHeight height).map entryID)
    match highestCommonBlock trial ids with
    | .error e => ([heights], .error (.sync (.request e)))
    | .ok [] => match heights.getLast? with
      | none => ([heights], .error .runtimePanic)
      | some last =>
        let next := commonBlockTrials trials (trial + 1) (u32 (last + 4294967296 - u32 ctx.currentValidators.length))
        (heights :: next.1, next.2)
    | .ok blockID => match l.byID blockID with
      | none => ([heights], .error (.sync .dataNotFound))
      | some e => ([heights], .ok e.1.header)

def getCommonBlockHeader (r : Rounding) : List (List Nat) × Except (BlockSyncError ε) BlockHeader :=
  match l.blocks with
  | [] => ([], .error .runtimePanic)
  | lastBlock :: _ => commonBlockTrials highestCommonBlock ctx l 3 0
    (getCommonBlockStartSearchHeight r lastBlock.1.header.height ctx.currentValidators.length)

end

structure OnChain (tip finalized : Nat) (trials : List (List Nat)) : Prop where
  nonempty : ∀ heights ∈ trials, heights ≠ []
  decreasing : ∀ heights ∈ trials, heights.Pairwise (· > ·)
  within : ∀ heights ∈ trials, ∀ height ∈ heights, finalized ≤ height ∧ height ≤ tip
  descends : trials.Pairwise (fun earlier later => ∀ height ∈ later, ∀ height' ∈ earlier, height ≤ height')

theorem startSearchHeight (r : Rounding) (small : height < 4294967296) (positive : 0 < roundLength) :
    getCommonBlockStartSearchHeight r height roundLength = (height-1)/roundLength*roundLength := by
  have zero : r.round 0 = 0 := by exact_mod_cast r.exact 0 (by decide)
  rcases Nat.eq_zero_or_pos height with empty | pos
  · simp [empty,getCommonBlockStartSearchHeight,zero]
  have bounded : (height-1)/roundLength*roundLength < 4294967296 := (Nat.div_mul_le_self _ _).trans_lt (by omega)
  have rounds : (height-1)/roundLength ≤ 2^53 := (Nat.div_le_self _ _).trans (by omega)
  have product : r.round (r.round ((height-1)/roundLength : ℕ)*r.round roundLength) =
      ((height-1)/roundLength*roundLength : ℕ) := by
    rw [r.exact _ rounds]
    rcases le_or_gt roundLength (2^53) with exactly | large
    · rw [r.exact _ exactly,← Nat.cast_mul,r.exact _ (by omega)]
    · simp [Nat.div_eq_of_lt (show height-1 < roundLength by omega),zero]
  have ceil := r.ceilQuotient small pos positive
  simp only [getCommonBlockStartSearchHeight]
  generalize (height-1)/roundLength = q at bounded product ceil ⊢
  have back : (((q : ℤ)+1 : ℤ) : ℚ)-1 = (q : ℕ) := by push_cast; exact add_sub_cancel_right _ _
  rw [ceil,if_neg (by omega),back,product,Int.floor_natCast,Int.toNat_natCast,u32Small bounded]

section
variable {start minimum gap : Nat}

def lowest (start minimum gap : Nat) : Nat :=
  if start ≤ minimum then minimum else start - min 8 ((start - minimum) / gap) * gap

def EndsInRange (start minimum gap : Nat) : Prop :=
  start ≤ minimum ∨ minimum + 8 * gap ≤ start ∨ minimum + ((start - minimum) / gap + 1) * gap < 4294967296

instance (start minimum gap : Nat) : Decidable (EndsInRange start minimum gap) := inferInstanceAs (Decidable (_ ∨ _ ∨ _))

theorem rangeTakeWhile (p : Nat → Bool) (m : Nat) :
    ∃ k ≤ m, (List.range m).takeWhile p = List.range k ∧ (∀ i < k, p i = true) ∧ (k = m ∨ p k = false) := by
  induction m with
  | zero => exact ⟨0,Nat.le_refl 0,rfl,fun _ less => absurd less (Nat.not_lt_zero _),.inl rfl⟩
  | succ m ih =>
    obtain ⟨k,bound,taken,holds,stops⟩ := ih
    rw [range_succ,takeWhile_append,taken,length_range,length_range]
    by_cases all : k = m
    · subst all
      cases last : p k with
      | true =>
        refine ⟨k+1,Nat.le_refl _,by simp [last,range_succ],fun i less => ?_,.inl rfl⟩
        rcases Nat.lt_succ_iff_lt_or_eq.mp less with earlier | same
        · exact holds i earlier
        · rw [same,last]
      | false => exact ⟨k,Nat.le_succ k,by simp [last],holds,.inr last⟩
    · rw [if_neg all]
      exact ⟨k,bound.trans (Nat.le_succ m),rfl,holds,.inr (stops.resolve_left all)⟩

theorem gapSpec (above : minimum < start) :
    ∃ k ≤ 9, getHeightWithGap start minimum gap 10 = (List.range k).map (fun i => u32 (start+4294967296-u32 (i*gap))) ∧
      (∀ i < k, u32 (minimum+u32 (i*gap)) ≤ start) ∧ (k = 9 ∨ start < u32 (minimum+u32 (k*gap))) := by
  obtain ⟨k,bound,taken,holds,stops⟩ := rangeTakeWhile (fun i => u32 (minimum+u32 (i * gap)) ≤ start) 9
  refine ⟨k,bound,?_,fun i less => of_decide_eq_true (holds i less),stops.imp_right (fun beyond => ?_)⟩
  · rw [getHeightWithGap,if_neg (not_le.mpr above),← taken]
  · exact not_le.mp (of_decide_eq_false beyond)

theorem headStart (above : minimum < start) (small : start < 4294967296) : start ∈ getHeightWithGap start minimum gap 10 := by
  obtain ⟨k,_,heights,_,stops⟩ := @gapSpec start minimum gap above
  have positive : 0 < k := by
    refine pos_of_ne_zero (fun absent => ?_)
    rcases stops with all | low
    · omega
    · rw [absent,zero_mul] at low
      have : u32 (minimum+u32 0) = minimum := u32Small (above.trans small)
      omega
  rw [heights,mem_map]
  refine ⟨0,mem_range.mpr positive,?_⟩
  simp only [u32]
  omega

def exactHeights (start minimum gap : Nat) : List Nat :=
  if start ≤ minimum then [minimum]
  else (List.range (min 8 ((start - minimum) / gap) + 1)).map (fun i => start - i * gap)

theorem multipleLe (above : minimum < start) {i} (bound : i ≤ (start-minimum)/gap) : minimum+i*gap ≤ start := by
  have := (Nat.mul_le_mul_right gap bound).trans (Nat.div_mul_le_self (start-minimum) gap)
  omega

theorem gapAtLeast (above : minimum < start) (small : start < 4294967296)
    (stops : k = 9 ∨ start < u32 (minimum+u32 (k*gap))) : min 8 ((start-minimum)/gap) < k := by
  by_contra few
  rcases stops with all | low
  · omega
  · have := @multipleLe start minimum gap above k (by omega)
    rw [u32Small (show k*gap < 4294967296 by omega),u32Small (by omega)] at low
    omega

theorem gapExact (pos : 0 < gap) (small : start < 4294967296) (ends : EndsInRange start minimum gap) :
    getHeightWithGap start minimum gap 10 = exactHeights start minimum gap := by
  rcases le_or_gt start minimum with below | above
  · rw [getHeightWithGap,if_pos below,exactHeights,if_pos below]
  obtain ⟨k,bound,heights,holds,stops⟩ := @gapSpec start minimum gap above
  have least := gapAtLeast above small stops
  have next := Nat.lt_mul_div_succ (start-minimum) pos
  rw [mul_comm] at next
  have len : k = min 8 ((start-minimum)/gap)+1 := by
    rcases ends with below | far | seen
    · omega
    · have : 8 ≤ (start-minimum)/gap := (Nat.le_div_iff_mul_le pos).mpr (by omega)
      omega
    · by_contra more
      have last := holds ((start-minimum)/gap+1) (by omega)
      rw [u32Small (show ((start-minimum)/gap+1)*gap < 4294967296 by omega),u32Small seen] at last
      omega
  rw [heights,exactHeights,if_neg (not_le.mpr above),← len]
  refine map_congr_left (fun i inside => ?_)
  have fits := @multipleLe start minimum gap above i (by have := mem_range.mp inside; omega)
  simp only [u32]
  omega

theorem gapWraps (pos : 0 < gap) (smallGap : gap < 4294967296) (small : start < 4294967296)
    (decreasing : (getHeightWithGap start minimum gap 10).Pairwise (· > ·))
    (above : ∀ height ∈ getHeightWithGap start minimum gap 10, minimum ≤ height) : EndsInRange start minimum gap := by
  by_contra unseen
  simp only [EndsInRange,not_or,not_le,not_lt] at unseen
  obtain ⟨higher,near,unseen⟩ := unseen
  have few : (start-minimum)/gap < 8 := (Nat.div_lt_iff_lt_mul pos).mpr (by omega)
  have own := @multipleLe start minimum gap higher _ (le_refl _)
  have next := Nat.lt_mul_div_succ (start-minimum) pos
  obtain ⟨k,bound,heights,holds,stops⟩ := @gapSpec start minimum gap higher
  have least := gapAtLeast higher small stops
  generalize (start-minimum)/gap = q at few own next unseen least
  have product : (q+1)*gap = q*gap+gap := Nat.succ_mul q gap
  have more : q+1 < k := by
    refine lt_of_le_of_ne (by omega) (fun same => ?_)
    rcases stops with all | low
    · omega
    · rw [← same] at low
      simp only [u32] at low
      omega
  have valueOf (i : Nat) (inside : i < k) : u32 (start+4294967296-u32 (i*gap)) ∈ getHeightWithGap start minimum gap 10 := by
    rw [heights]
    exact mem_map.mpr ⟨i,mem_range.mpr inside,rfl⟩
  have low := above _ (valueOf (q+1) more)
  have smaller : u32 (start+4294967296-u32 ((q+1)*gap)) < u32 (start+4294967296-u32 (q*gap)) := by
    rw [heights,pairwise_map] at decreasing
    have after := pairwise_iff_getElem.mp decreasing q (q+1) (by simp; omega) (by simp; omega) (Nat.lt_succ_self q)
    simpa using after
  simp only [u32] at low smaller
  omega

theorem endsLower (lower : start+gap < 4294967296) : EndsInRange start minimum gap := by
  have least := Nat.div_mul_le_self (start-minimum) gap
  have next : ((start-minimum)/gap+1)*gap = (start-minimum)/gap*gap+gap := Nat.succ_mul _ _
  unfold EndsInRange
  omega

theorem lowestBounds (start minimum gap : Nat) : minimum ≤ lowest start minimum gap ∧ lowest start minimum gap ≤ max start minimum := by
  unfold lowest
  split
  · omega
  · have := @multipleLe start minimum gap (by omega) _ (min_le_right 8 _)
    omega

theorem exactLast (start minimum gap : Nat) : (exactHeights start minimum gap).getLast? = some (lowest start minimum gap) := by
  unfold exactHeights lowest
  split
  · rfl
  · rw [range_succ]
    simp

theorem exactBetween (asked : height ∈ exactHeights start minimum gap) :
    lowest start minimum gap ≤ height ∧ height ≤ max start minimum := by
  unfold exactHeights at asked
  unfold lowest
  split at asked
  · rw [mem_singleton.mp asked]
    split <;> omega
  rw [if_neg (by assumption)]
  obtain ⟨i,inside,rfl⟩ := mem_map.mp asked
  have := Nat.mul_le_mul_right gap (Nat.lt_succ_iff.mp (mem_range.mp inside))
  omega

theorem exactDecreasing (pos : 0 < gap) : (exactHeights start minimum gap).Pairwise (· > ·) := by
  unfold exactHeights
  split
  · exact pairwise_singleton _ _
  rename_i above
  rw [pairwise_map]
  refine pairwise_lt_range.imp_of_mem (fun {i j} _ inside less => ?_)
  have fits := @multipleLe start minimum gap (by omega) j (by have := mem_range.mp inside; omega)
  have := mul_lt_mul_of_pos_right less pos
  omega

end

section
variable {tip finalized : Nat}

theorem onChainCons (among : least ∈ heights) (isLeast : ∀ height ∈ heights, least ≤ height) :
    OnChain tip finalized (heights::trials) ↔
      heights.Pairwise (· > ·) ∧ (∀ height ∈ heights, finalized ≤ height ∧ height ≤ tip) ∧ OnChain least finalized trials := by
  constructor
  · rintro ⟨ne,decreasing,fit,descends⟩
    obtain ⟨below,descends⟩ := pairwise_cons.mp descends
    refine ⟨decreasing _ (.head _),fit _ (.head _),?_⟩
    exact ⟨fun t later => ne t (.tail _ later),fun t later => decreasing t (.tail _ later),
      fun t later h asked => ⟨(fit t (.tail _ later) h asked).1,below t later h asked least among⟩,descends⟩
  · rintro ⟨decreasing,fit,rest⟩
    refine ⟨?_,?_,?_,pairwise_cons.mpr ⟨fun t later h asked h' first =>
      ((rest.within t later h asked).2).trans (isLeast h' first),rest.descends⟩⟩
    · exact forall_mem_cons.mpr ⟨ne_nil_of_mem among,rest.nonempty⟩
    · exact forall_mem_cons.mpr ⟨decreasing,rest.decreasing⟩
    · refine forall_mem_cons.mpr ⟨fit,fun t later h asked => ?_⟩
      obtain ⟨low,high⟩ := rest.within t later h asked
      exact ⟨low,high.trans (fit least among).2⟩

theorem onChainNil : OnChain tip finalized [] where
  nonempty := by simp
  decreasing := by simp
  within := by simp
  descends := .nil

def askedHeights (minimum gap : Nat) : Nat → Nat → List (List Nat)
  | 0, _ => []
  | trials + 1, start => getHeightWithGap start minimum gap 10 ::
    ((getHeightWithGap start minimum gap 10).getLast?.elim []
      (fun last => askedHeights minimum gap trials (u32 (last + 4294967296 - u32 gap))))

theorem trialsAsked {ε : Type} {highestCommonBlock : Nat → List Bytes → Except ε Bytes}
    (notFound : ∀ trial ids, highestCommonBlock trial ids = .ok []) (ctx : SyncContext) (l : Listed) (trials trial start : Nat) :
    (commonBlockTrials highestCommonBlock ctx l trials trial start).1 =
      askedHeights ctx.finalizedHeight ctx.currentValidators.length trials start := by
  induction trials generalizing trial start with
  | zero => rfl
  | succ trials ih =>
    simp only [commonBlockTrials,askedHeights,notFound]
    cases (getHeightWithGap start ctx.finalizedHeight ctx.currentValidators.length 10).getLast? with
    | none => rfl
    | some last => simp only [ih,Option.elim]

variable {gap trials start : Nat}

theorem trialAbove (atMost : finalized ≤ tip) (above : tip < start) (small : start < 4294967296) :
    ¬OnChain tip finalized (askedHeights finalized gap (trials+1) start) := by
  intro onChain
  have := (onChain.within _ (.head _) start (headStart (atMost.trans_lt above) small)).2
  omega

theorem trialLow (atMost : finalized ≤ tip) (low : start ≤ finalized) :
    OnChain tip finalized (askedHeights finalized gap (trials+1) start) ↔
      OnChain finalized finalized (askedHeights finalized gap trials (u32 (finalized+4294967296-u32 gap))) := by
  have heights : getHeightWithGap start finalized gap 10 = [finalized] := if_pos low
  rw [askedHeights,heights,onChainCons (mem_singleton_self _) (by simp)]
  refine ⟨fun onChain => onChain.2.2,fun onChain => ⟨pairwise_singleton _ _,?_,onChain⟩⟩
  exact fun height asked => by rw [mem_singleton.mp asked]; exact ⟨le_refl _,atMost⟩

theorem trialStep (pos : 0 < gap) (smallGap : gap < 4294967296) (atMost : finalized ≤ tip) (small : start < 4294967296) :
    OnChain tip finalized (askedHeights finalized gap (trials+1) start) ↔
      start ≤ tip ∧ EndsInRange start finalized gap ∧ OnChain (lowest start finalized gap) finalized
        (askedHeights finalized gap trials (u32 (lowest start finalized gap+4294967296-u32 gap))) := by
  rcases le_or_gt start tip with below | above
  swap
  · exact ⟨fun onChain => absurd onChain (trialAbove atMost above small),fun fit => by omega⟩
  by_cases ends : EndsInRange start finalized gap
  · have exactly := gapExact pos small ends
    have bounds := lowestBounds start finalized gap
    have isLast := exactLast start finalized gap
    rw [askedHeights,exactly,isLast,Option.elim,onChainCons (mem_of_getLast? isLast) (fun height asked => (exactBetween asked).1)]
    refine ⟨fun onChain => ⟨below,ends,onChain.2.2⟩,fun onChain => ⟨exactDecreasing pos,fun height asked => ?_,onChain.2.2⟩⟩
    have := exactBetween asked
    omega
  · refine ⟨fun onChain => absurd ?_ ends,fun onChain => absurd onChain.2.1 ends⟩
    exact gapWraps pos smallGap small (onChain.decreasing _ (.head _))
      (fun height asked => (onChain.within _ (.head _) height asked).1)

theorem trialNext (atMost : finalized ≤ tip) (small : tip < 4294967296) :
    OnChain tip finalized (askedHeights finalized gap (trials+1) (u32 (tip+4294967296-u32 gap))) ↔
      u32 gap ≤ tip ∧ OnChain tip finalized (askedHeights finalized gap (trials+1) (tip-u32 gap)) := by
  have bounded := u32Lt gap
  by_cases enough : u32 gap ≤ tip
  · have same : u32 (tip+4294967296-u32 gap) = tip-u32 gap := by
      generalize u32 gap = n at enough
      simp only [u32]
      omega
    rw [same,and_iff_right enough]
  · refine iff_of_false (fun onChain => trialAbove atMost ?_ (u32Lt _) onChain) (fun onChain => enough onChain.1)
    generalize u32 gap = n at bounded enough
    simp only [u32]
    omega

theorem trialsExact (pos : 0 < gap) (smallGap : gap < 4294967296) (atMost : finalized ≤ tip) (smallTip : tip < 4294967296)
    (below : start ≤ tip) : OnChain tip finalized (askedHeights finalized gap 3 start) ↔ EndsInRange start finalized gap ∧
      gap ≤ lowest start finalized gap ∧ gap ≤ lowest (lowest start finalized gap-gap) finalized gap := by
  have first := lowestBounds start finalized gap
  rw [trialStep pos smallGap atMost (by omega),and_iff_right below]
  refine and_congr_right (fun _ => ?_)
  rw [trialNext first.1 (by omega),u32Small smallGap]
  refine and_congr_right (fun enough => ?_)
  generalize lowest start finalized gap = height at first enough ⊢
  have second := lowestBounds (height-gap) finalized gap
  rw [trialStep pos smallGap first.1 (by omega),and_iff_right (sub_le _ _),
    and_iff_right (endsLower (by omega)),trialNext second.1 (by omega),u32Small smallGap]
  refine ⟨fun onChain => onChain.1,fun enough' => ⟨enough',?_⟩⟩
  generalize lowest (height-gap) finalized gap = height' at second enough' ⊢
  rw [trialStep pos smallGap second.1 (by omega)]
  exact ⟨sub_le _ _,endsLower (by omega),onChainNil⟩

theorem trialsLow (atMost : finalized ≤ tip) (smallTip : tip < 4294967296) (low : start ≤ finalized) :
    OnChain tip finalized (askedHeights finalized gap 3 start) ↔ u32 gap ≤ finalized := by
  have small : finalized < 4294967296 := by omega
  rw [trialLow atMost low,trialNext (le_refl _) small]
  refine ⟨fun onChain => onChain.1,fun enough => ⟨enough,?_⟩⟩
  rw [trialLow (le_refl _) (sub_le _ _),trialNext (le_refl _) small,and_iff_right enough,trialLow (le_refl _) (sub_le _ _)]
  exact onChainNil

end

section
variable {a finalized n : Nat} (smaller : finalized < n)
include smaller

theorem lowestMultiple (positive : 0 < a) : lowest (a*n) finalized n = (a-min 8 (a-min 1 finalized))*n := by
  have atLeast : n ≤ a*n := Nat.le_mul_of_pos_left n positive
  have rounds : (a*n-finalized)/n = a-min 1 finalized := by
    rcases Nat.eq_zero_or_pos finalized with genesis | later
    · rw [genesis,Nat.sub_zero,Nat.mul_div_cancel a (by omega)]
      rfl
    · have split : a*n = (a-1)*n+n := by rw [← Nat.succ_mul]; congr 1; omega
      rw [show min 1 finalized = 1 by omega,Nat.div_eq_iff (by omega)]
      omega
  rw [lowest,if_neg (by omega),rounds,Nat.sub_mul]

theorem roundBelow : n ≤ lowest (a*n) finalized n ↔ 0 < a ∧ 0 < a-min 8 (a-min 1 finalized) := by
  rcases Nat.eq_zero_or_pos a with zero | positive
  · rw [zero,Nat.zero_mul,lowest,if_pos (Nat.zero_le _)]
    omega
  rw [lowestMultiple smaller positive,and_iff_right positive]
  refine ⟨fun enough => Nat.pos_of_ne_zero (fun absent => ?_),fun more => Nat.le_mul_of_pos_left n more⟩
  rw [absent] at enough
  omega

theorem roundsEnough : n ≤ lowest (a*n) finalized n ∧ n ≤ lowest (lowest (a*n) finalized n-n) finalized n ↔
      18 ≤ a ∨ 0 < finalized ∧ 10 ≤ a := by
  rw [roundBelow smaller]
  rcases Nat.eq_zero_or_pos a with zero | positive
  · omega
  have next : lowest (a*n) finalized n-n = (a-min 8 (a-min 1 finalized)-1)*n := by
    rw [lowestMultiple smaller positive,Nat.sub_mul _ 1,Nat.one_mul]
  rw [next,roundBelow smaller]
  omega

end

theorem searchOnChainIff {ε : Type} (r : Rounding) (highestCommonBlock : Nat → List Bytes → Except ε Bytes)
    (notFound : ∀ trial ids, highestCommonBlock trial ids = .ok []) (ctx : SyncContext) (l : Listed)
    (lastBlock : Block × List Event) (rest : List (Block × List Event)) (chain : l.blocks = lastBlock :: rest)
    (small : lastBlock.1.header.height < 4294967296) (atMost : ctx.finalizedHeight ≤ lastBlock.1.header.height)
    (filled : 0 < ctx.currentValidators.length) :
    OnChain lastBlock.1.header.height ctx.finalizedHeight (getCommonBlockHeader highestCommonBlock ctx l r).1 ↔
      u32 ctx.currentValidators.length ≤ ctx.finalizedHeight ∧
          EndsInRange ((lastBlock.1.header.height - 1) / ctx.currentValidators.length * ctx.currentValidators.length)
            ctx.finalizedHeight ctx.currentValidators.length ∨ ctx.finalizedHeight < ctx.currentValidators.length ∧
          (18 * ctx.currentValidators.length < lastBlock.1.header.height ∨
            0 < ctx.finalizedHeight ∧ 10 * ctx.currentValidators.length < lastBlock.1.header.height) := by
  simp only [getCommonBlockHeader,chain,startSearchHeight r small filled,trialsAsked notFound]
  generalize lastBlock.1.header.height = tip at small atMost ⊢
  generalize ctx.currentValidators.length = gap at filled ⊢
  generalize ctx.finalizedHeight = finalized at atMost ⊢
  have below := Nat.div_mul_le_self (tip - 1) gap
  rcases le_or_gt 4294967296 gap with large | smallGap
  · rw [Nat.div_eq_of_lt (show tip - 1 < gap by omega),zero_mul,trialsLow atMost small (Nat.zero_le _)]
    refine ⟨fun enough => .inl ⟨enough,.inl (Nat.zero_le _)⟩,?_⟩
    rintro (enough | far)
    · exact enough.1
    · omega
  · rw [trialsExact filled smallGap atMost small (by omega),u32Small smallGap]
    rcases le_or_gt gap finalized with enough | few
    · have first := lowestBounds ((tip - 1) / gap * gap) finalized gap
      refine ⟨fun exactly => .inl ⟨enough,exactly.1⟩,?_⟩
      rintro (⟨_,ends⟩ | far)
      · exact ⟨ends,enough.trans first.1,enough.trans (lowestBounds _ _ _).1⟩
      · omega
    · rw [roundsEnough few,Nat.le_div_iff_mul_le filled,Nat.le_div_iff_mul_le filled]
      constructor
      · rintro ⟨_,rounds⟩
        exact .inr ⟨few,by omega⟩
      rintro (enough | ⟨_,rounds⟩)
      · omega
      · have tenRounds : 10 * gap ≤ (tip - 1) / gap * gap := Nat.mul_le_mul_right _ ((Nat.le_div_iff_mul_le filled).mpr (by omega))
        exact ⟨.inr (.inl (by omega)),by omega⟩

theorem searchOnChainRound : OnChain 30 4 (getCommonBlockHeader (ε := Unit) (fun _ _ => .ok [])
      {sampleSyncContext with finalizedHeight := 4, currentValidators := [[1], [2], [3], [4]]}
      ⟨[(sampleSyncBlock 30 1 0, [])], OrderedMap.empty⟩ Rounding.exactly).1 :=
  (searchOnChainIff Rounding.exactly (fun _ _ => .ok []) (fun _ _ => rfl)
    {sampleSyncContext with finalizedHeight := 4, currentValidators := [[1],[2],[3],[4]]} _ (sampleSyncBlock 30 1 0, []) []
    rfl (by decide) (by decide) (by decide)).mpr (.inl ⟨by decide,by decide⟩)

theorem searchLeavesChain :
    (getCommonBlockHeader (ε := Unit) (fun _ _ => .ok []) sampleSyncContext sampleSyncChain Rounding.exactly).1 =
      [[1, 0], (List.range 9).map (4294967295 - ·), (List.range 9).map (4294967286 - ·)] := by
  decide +kernel

end LiskEngine.Sync
