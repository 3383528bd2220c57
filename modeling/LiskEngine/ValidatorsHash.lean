import LiskEngine.BftHistory
import LiskEngine.BlockIdentity

/-! The validators hash: the BLS keys and weights of the validators, sorted by key and
encoded with the certificate threshold. -/
namespace LiskEngine.Validator
open Codec List Option Schema
open Smt (CollisionFree)
open Blockchain (boundOrCollides)

structure HashValidator where
  blsKey : Bytes
  bftWeight : Nat
  deriving DecidableEq, Repr

def HashValidator.schema : Schema := .cons 1 .bytes (.cons 2 .uint64 .nil)

def HashValidator.value (v : HashValidator) : HashValidator.schema.Value := (v.blsKey, v.bftWeight, ())

def HashValidator.sort (validators : List HashValidator) : List HashValidator :=
  validators.insertionSort (fun a b => a.blsKey ≤ b.blsKey)

structure ValidatorsHashData where
  activeValidators : List HashValidator
  certificateThreshold : Nat
  deriving DecidableEq, Repr

def ValidatorsHashData.schema : Schema := .cons 1 (.messageArray HashValidator.schema) (.cons 2 .uint64 .nil)

def ValidatorsHashData.value (d : ValidatorsHashData) : ValidatorsHashData.schema.Value :=
  (d.activeValidators.map (fun v => some v.value), d.certificateThreshold, ())

section
variable (text : Normalizer) (sha : Bytes → Bytes)

def encodedInfo (validators : List HashValidator) (certificateThreshold : Nat) : Option Bytes :=
  ValidatorsHashData.schema.encode text (ValidatorsHashData.value ⟨HashValidator.sort validators,certificateThreshold⟩)

def computeValidatorsHash (validators : List HashValidator) (certificateThreshold : Nat) : Option Bytes :=
  (encodedInfo text validators certificateThreshold).map sha

end

/-- What the types of the source hold: 64 bit numbers, and slices of less than 2^63 bytes. -/
structure Sized (text : Normalizer) (validators : List HashValidator) (certificateThreshold : Nat) : Prop where
  weights : ∀ v ∈ validators, v.bftWeight < 18446744073709551616
  threshold : certificateThreshold < 18446744073709551616
  short : ∀ data, encodedInfo text validators certificateThreshold = some data → data.length < 2 ^ 63

variable {text : Normalizer} {sha : Bytes → Bytes} {validators validators' : List HashValidator} {threshold threshold' : Nat}

theorem sortPerm (validators : List HashValidator) : (HashValidator.sort validators).Perm validators := perm_insertionSort _ _

theorem sortAscending (validators : List HashValidator) :
    (HashValidator.sort validators).Pairwise (fun a b => a.blsKey ≤ b.blsKey) := by
  exact pairwise_insertionSort _ _

theorem sortCanonical (keys : (validators.map (·.blsKey)).Nodup) (perm : validators.Perm validators') :
    HashValidator.sort validators = HashValidator.sort validators' := by
  have both := (sortPerm validators).trans (perm.trans (sortPerm validators').symm)
  refine both.eq_of_pairwise (fun a b inside inside' ab ba => ?_) (sortAscending _) (sortAscending _)
  have mem := (sortPerm validators).mem_iff.mp inside
  have mem' := perm.mem_iff.mpr ((sortPerm validators').mem_iff.mp inside')
  exact inj_on_of_nodup_map keys mem mem' (le_antisymm ab ba)

theorem hashDataIncreasing : ValidatorsHashData.schema.Increasing 0 := by
  simp [ValidatorsHashData.schema,HashValidator.schema,Schema.Increasing,Kind.Increasing]

theorem Sized.valid (sized : Sized text validators threshold) :
    ValidatorsHashData.schema.Valid text (ValidatorsHashData.value ⟨HashValidator.sort validators,threshold⟩) := by
  refine ⟨fun e mem => ?_,sized.threshold,trivial⟩
  obtain ⟨v,listed,rfl⟩ := mem_map.mp mem
  exact ⟨v.value,rfl,trivial,sized.weights v ((sortPerm validators).mem_iff.mp listed),trivial⟩

theorem valueInjective {d d' : ValidatorsHashData} (same : d.value = d'.value) : d = d' := by
  obtain ⟨active,certificate⟩ := d
  obtain ⟨active',certificate'⟩ := d'
  obtain ⟨listed,rest⟩ := Prod.mk.inj same
  have own : Function.Injective (fun v : HashValidator => some v.value) := by
    intro v w eq
    cases v
    cases w
    cases eq
    rfl
  have lists : active = active' := own.list_map listed
  have numbers : certificate = certificate' := (Prod.mk.inj rest).1
  rw [lists,numbers]

theorem encodedDetermines (sized : Sized text validators threshold) (sized' : Sized text validators' threshold') {data : Bytes}
    (enc : encodedInfo text validators threshold = some data) (enc' : encodedInfo text validators' threshold' = some data) :
    threshold = threshold' ∧ HashValidator.sort validators = HashValidator.sort validators' := by
  have read := decodeEncoded (by decide) hashDataIncreasing sized.valid enc (sized.short data enc)
  have read' := decodeEncoded (by decide) hashDataIncreasing sized'.valid enc' (sized.short data enc)
  have same := valueInjective (Except.ok.inj (read.symm.trans read'))
  exact ⟨congrArg ValidatorsHashData.certificateThreshold same,congrArg ValidatorsHashData.activeValidators same⟩

theorem encodedSome (text : Normalizer) (validators : List HashValidator) (threshold : Nat) :
    ∃ data, encodedInfo text validators threshold = some data := encodeSome _ (by decide) _

def hashedStrings (text : Normalizer) (validators validators' : List HashValidator) (threshold threshold' : Nat) : List Bytes :=
  [(encodedInfo text validators threshold).getD [],(encodedInfo text validators' threshold').getD []]

theorem freeHashIdentifies (keys : (validators.map (·.blsKey)).Nodup) (keys' : (validators'.map (·.blsKey)).Nodup)
    (sized : Sized text validators threshold) (sized' : Sized text validators' threshold')
    (free : CollisionFree sha (hashedStrings text validators validators' threshold threshold')) :
    computeValidatorsHash text sha validators threshold = computeValidatorsHash text sha validators' threshold' ↔
      threshold = threshold' ∧ ∀ v, v ∈ validators ↔ v ∈ validators' := by
  obtain ⟨data,enc⟩ := encodedSome text validators threshold
  obtain ⟨data',enc'⟩ := encodedSome text validators' threshold'
  constructor
  · intro same
    rw [computeValidatorsHash,computeValidatorsHash,enc,enc',map_some,map_some] at same
    have equal : data = data' := free data (by simp [hashedStrings,enc]) data' (by simp [hashedStrings,enc'])
      (some.inj same)
    obtain ⟨thresholds,sorted⟩ := encodedDetermines sized sized' enc (equal ▸ enc')
    refine ⟨thresholds,fun v => ?_⟩
    rw [← (sortPerm validators).mem_iff,sorted,(sortPerm validators').mem_iff]
  · rintro ⟨rfl,mems⟩
    have perm := (perm_ext_iff_of_nodup keys.of_map keys'.of_map).mpr mems
    rw [computeValidatorsHash,computeValidatorsHash,encodedInfo,encodedInfo,sortCanonical keys perm]

theorem validatorsHashIdentifies (text : Normalizer) (sha : Bytes → Bytes) (validators validators' : List HashValidator)
    (threshold threshold' : Nat) (keys : (validators.map (·.blsKey)).Nodup) (keys' : (validators'.map (·.blsKey)).Nodup)
    (sized : Sized text validators threshold) (sized' : Sized text validators' threshold') :
    (computeValidatorsHash text sha validators threshold = computeValidatorsHash text sha validators' threshold' ↔
      threshold = threshold' ∧ ∀ v, v ∈ validators ↔ v ∈ validators') ∨
    ∃ x ∈ hashedStrings text validators validators' threshold threshold',
      ∃ y ∈ hashedStrings text validators validators' threshold threshold', x ≠ y ∧ sha x = sha y :=
  boundOrCollides (freeHashIdentifies keys keys' sized sized')

theorem validatorsHashSample : (computeValidatorsHash Blockchain.asciiText id [⟨[2], 5⟩, ⟨[1], 7⟩] 9 =
        computeValidatorsHash Blockchain.asciiText id [⟨[1], 7⟩, ⟨[2], 5⟩] 9 ↔
      9 = 9 ∧ ∀ v, v ∈ [HashValidator.mk [2] 5, ⟨[1], 7⟩] ↔ v ∈ [HashValidator.mk [1] 7, ⟨[2], 5⟩]) ∨
    ∃ x ∈ hashedStrings Blockchain.asciiText [⟨[2], 5⟩, ⟨[1], 7⟩] [⟨[1], 7⟩, ⟨[2], 5⟩] 9 9,
      ∃ y ∈ hashedStrings Blockchain.asciiText [⟨[2], 5⟩, ⟨[1], 7⟩] [⟨[1], 7⟩, ⟨[2], 5⟩] 9 9, x ≠ y ∧ id x = id y := by
  have bytes : ∀ validators ∈ [[HashValidator.mk [2] 5,⟨[1],7⟩],[⟨[1],7⟩,⟨[2],5⟩]],
      encodedInfo Blockchain.asciiText validators 9 = some [10,5,10,1,1,16,7,10,5,10,1,2,16,5,16,9] := by
    decide +kernel
  have sized : ∀ validators ∈ [[HashValidator.mk [2] 5,⟨[1],7⟩],[⟨[1],7⟩,⟨[2],5⟩]], Sized Blockchain.asciiText validators 9 := by
    intro validators listed
    refine ⟨?_,by decide,fun data encoded => ?_⟩
    · rcases mem_pair.mp listed with rfl | rfl <;> decide
    · rw [← some.inj ((bytes validators listed).symm.trans encoded)]
      decide
  exact validatorsHashIdentifies Blockchain.asciiText id _ _ 9 9 (by decide) (by decide) (sized _ (by simp)) (sized _ (by simp))

end LiskEngine.Validator
