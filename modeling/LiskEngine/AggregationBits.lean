import LiskEngine.VerifyBlock

/-! Aggregation bits: what is written is what is read, and which keys and weights
the verifier selects with them. -/
namespace LiskEngine.Consensus
open Liskbft List
open Nat (mod_lt)

theorem shiftAmount (small : t < 8) : (UInt8.ofNat t).toNat % 8 = t := by
  have fits : t < UInt8.size := lt_of_lt_of_le small (by decide)
  rw [UInt8.toNat_ofNat_of_lt' fits,Nat.mod_eq_of_lt small]

theorem byteTest (byte : UInt8) (small : t < 8) : ((byte >>> UInt8.ofNat t) % 2 == 1) = byte.toNat.testBit t := by
  rw [Bool.eq_iff_iff,beq_iff_eq,← UInt8.toNat_inj,Nat.testBit_eq_decide_div_mod_eq,decide_eq_true_eq,
    UInt8.toNat_mod,UInt8.toNat_shiftRight,Nat.shiftRight_eq_div_pow]
  rw [shiftAmount small]
  rfl

theorem byteSet (byte : UInt8) (small : s < 8) (t : Nat) :
    (byte ||| ((1 : UInt8) <<< UInt8.ofNat s)).toNat.testBit t = (decide (t = s) || byte.toNat.testBit t) := by
  have power : ((1 : UInt8) <<< UInt8.ofNat s).toNat = 2^s := by
    have fits : 2^s < 2^8 := Nat.pow_lt_pow_right (by decide) small
    rw [UInt8.toNat_shiftLeft,shiftAmount small,UInt8.toNat_one,Nat.shiftLeft_eq,one_mul,Nat.mod_eq_of_lt fits]
  rw [UInt8.toNat_or,power,Nat.testBit_or,Nat.testBit_two_pow,Bool.or_comm]
  simp [eq_comm]

theorem readWrite (bits : Bytes) (i j : Nat) :
    readBit (writeBit bits i) j = (readBit bits j).map (fun old => decide (j = i) || old) := by
  unfold readBit writeBit
  rw [getElem?_modify]
  by_cases sameByte : i/8 = j/8
  · simp only [if_pos sameByte]
    cases bits[j/8]? with
    | none => rfl
    | some byte =>
      simp only [Option.map_eq_map,Option.map_some]
      rw [byteTest _ (mod_lt j (by decide)),byteTest _ (mod_lt j (by decide)),byteSet byte (mod_lt i (by decide))]
      have sameBit : (j % 8 = i % 8) = (j = i) := propext ⟨by omega,by rintro rfl; rfl⟩
      simp only [sameBit]
  · have other : j ≠ i := fun same => sameByte (by rw [same])
    simp only [if_neg sameByte]
    cases bits[j/8]? with
    | none => rfl
    | some byte => simp [other]

theorem readEmpty (size i : Nat) : readBit (List.replicate size 0) i = if i/8 < size then some false else none := by
  unfold readBit
  rw [getElem?_replicate]
  split
  · rw [Option.map_some,byteTest _ (mod_lt i (by decide))]
    simp
  · rfl

theorem readFull (inside : i/8 < size) : readBit (List.replicate size 255) i = some true := by
  unfold readBit
  rw [getElem?_replicate,if_pos inside,Option.map_some,byteTest _ (mod_lt i (by decide))]
  have full : ∀ t < 8, (255 : UInt8).toNat.testBit t = true := by decide
  rw [full _ (mod_lt i (by decide))]

theorem sortedPerm (params : BFTParams) :
    (validatorsWithBLSKey params).Perm (params.validators.map (fun v => ⟨v.address,v.bftWeight,v.blsKey⟩)) :=
  perm_insertionSort _ _

structure Marks (bits : Bytes) (size : Nat) (marked : Nat → Bool) : Prop where
  read : ∀ i, i < size → readBit bits i = some (marked i)

theorem marksStart (size : Nat) : Marks (List.replicate ((size+7)/8) 0) size (fun _ => false) := by
  refine ⟨fun i inside => ?_⟩
  rw [readEmpty,if_pos (by omega)]

theorem marksWrite (marks : Marks bits size marked) (i : Nat) :
    Marks (writeBit bits i) size (fun j => decide (j = i) || marked j) := by
  refine ⟨fun j inside => ?_⟩
  rw [readWrite,marks.read j inside]
  rfl

theorem writeBitLength (bits : Bytes) (i : Nat) : (writeBit bits i).length = bits.length := by
  simp [writeBit]

def chosenEntries {α : Type} (marked : Nat → Bool) (i : Nat) (entries : List α) : List α :=
  ((entries.zipIdx i).filter (fun e => marked e.2)).map Prod.fst

theorem chosenCons {α : Type} (marked : Nat → Bool) (i : Nat) (entry : α) (rest : List α) : chosenEntries marked i (entry::rest) =
      if marked i then entry::chosenEntries marked (i+1) rest else chosenEntries marked (i+1) rest := by
  unfold chosenEntries
  rw [zipIdx_cons,filter_cons]
  split <;> rfl

theorem chosenMap {α β : Type} (marked : Nat → Bool) (i : Nat) (f : α → β) (es : List α) :
    chosenEntries marked i (es.map f) = (chosenEntries marked i es).map f := by
  induction es generalizing i with
  | nil => rfl
  | cons entry rest ih =>
    rw [map_cons,chosenCons,chosenCons,ih]
    split <;> rfl

theorem chosenAll {α : Type} (i : Nat) (es : List α) : chosenEntries (fun _ => true) i es = es := by
  induction es generalizing i with
  | nil => rfl
  | cons entry rest ih => rw [chosenCons,if_pos rfl,ih]

theorem selectMarked (marks : Marks bits size marked) (es : List (Bytes × Nat)) (inside : i+es.length ≤ size) :
    selectKeys bits i es = some ((chosenEntries marked i es).map Prod.fst, u64 ((chosenEntries marked i es).map Prod.snd).sum) := by
  induction es generalizing i with
  | nil => rfl
  | cons entry rest ih =>
    simp only [length_cons] at inside
    unfold selectKeys
    rw [chosenCons,marks.read i (by omega),ih (by omega)]
    cases marked i with
    | true =>
      simp only [if_true,map_cons,sum_cons,Option.some.injEq,Prod.mk.injEq,true_and]
      unfold u64
      omega
    | false => rfl

theorem verifyMarked (marks : Marks bits params.validators.length marked) :
    blsVerifyWeightedAggSig bls ((validatorsWithBLSKey params).map (fun v => (v.blsKey,v.bftWeight))) bits signature
        params.certificateThreshold message = .ok true ↔ params.certificateThreshold ≤
          u64 ((chosenEntries marked 0 (validatorsWithBLSKey params)).map (·.bftWeight)).sum ∧
        bls.fastAggregateVerify ((chosenEntries marked 0 (validatorsWithBLSKey params)).map (·.blsKey)) message signature = true := by
  have size : (validatorsWithBLSKey params).length = params.validators.length := by
    rw [(sortedPerm params).length_eq,length_map]
  have sel := selectMarked marks ((validatorsWithBLSKey params).map (fun v => (v.blsKey,v.bftWeight))) (i := 0)
    (by simp [size])
  rw [chosenMap,map_map,map_map] at sel
  unfold blsVerifyWeightedAggSig
  rw [sel]
  simp only [Function.comp_def]
  split
  · rename_i less
    simp [not_le.mpr less]
  · rename_i reached
    simp [not_lt.mp reached]

end LiskEngine.Consensus
