import LiskEngine.CommitPool
import LiskEngine.DataAccess

/-! What the decoders make of bytes that no encoder wrote: the forms they accept, how far
they read and where they crash. -/
namespace LiskEngine
open List AggregateCommit

open Codec in
def Consensus.Certificate.schema : Schema :=
  .cons 1 .bytes (.cons 2 .uint32 (.cons 3 .uint32 (.cons 4 .bytes (.cons 5 .bytes (.cons 6 .bytes (.cons 7 .bytes .nil))))))

namespace Codec
open Varint

def Kind.wide : Kind → Kind
  | .uint32 => .uint64
  | kind => kind

def Schema.wide : Schema → Schema
  | .nil => .nil
  | .cons number kind rest => .cons number kind.wide rest.wide

theorem Kind.wideValue (kind : Kind) : kind.Value = kind.wide.Value := by cases kind <;> rfl

def Schema.widen : (fields : Schema) → fields.Value → fields.wide.Value
  | .nil, x => x
  | .cons _ kind rest, (x, xs) => (cast kind.wideValue x, rest.widen xs)

variable {text : Normalizer}

theorem Schema.encodeWide (fields : Schema) (x : fields.Value) : fields.wide.encode text (fields.widen x) = fields.encode text x := by
  match fields, x with
  | .nil, _ => rfl
  | .cons number kind rest, (x,xs) =>
    have first : kind.wide.write text number (cast kind.wideValue x) = kind.write text number x := by
      cases kind <;> rfl
    simp only [Schema.wide,Schema.widen,Schema.encode,first,Schema.encodeWide rest xs]

theorem Schema.validWide {fields : Schema} {x} (valid : fields.Valid text x) : fields.wide.Valid text (fields.widen x) := by
  match fields, x with
  | .nil, _ => trivial
  | .cons number kind rest, (x,xs) =>
    refine ⟨?_,Schema.validWide valid.2⟩
    have first := valid.1
    cases kind with
    | uint32 => exact lt_trans first (by decide)
    | _ => exact first

def flatMessages : List Schema := [AggregateCommit.schema,Consensus.Certificate.schema,Consensus.SingleCommit.schema]

theorem flatStrictCanonical {fields : Schema} (flat : fields ∈ flatMessages) {b x} (short : b.length < 2 ^ 63)
    (ok : fields.decodeStrict text b = .ok x) :
    (fields.encode text x = some b ↔ fields.wide.decodeStrict text b = .ok (fields.widen x)) ∧
      ∀ other, fields.wide.decodeStrict text other = .ok (fields.widen x) → fields.encode text x = some other := by
  have shape : fields.wide.canonical = true ∧ (∀ number ∈ fields.wide.numbers, number < 2 ^ 32) ∧
      fields.wide.Increasing 0 ∧ fields.Whole text := by
    simp only [flatMessages,mem_cons,not_mem_nil,or_false] at flat
    rcases flat with rfl | rfl | rfl <;> refine ⟨rfl,by decide,?_,?_⟩ <;>
      simp [AggregateCommit.schema,Consensus.Certificate.schema,Consensus.SingleCommit.schema,Schema.wide,Kind.wide,
        Schema.Increasing,Kind.Increasing,Schema.Whole,Kind.Whole]
  obtain ⟨canonical,small,increasing,whole⟩ := shape
  have form : ∀ other, fields.wide.decodeStrict text other = .ok (fields.widen x) → fields.encode text x = some other :=
    fun other wide => by rw [← Schema.encodeWide]; exact Schema.decodeStrictCanonical canonical wide
  refine ⟨⟨fun encoded => ?_,form b⟩,form⟩
  obtain ⟨⟨value,last⟩,decoded,rest⟩ := bindOk ok
  obtain rfl : value = x := by
    simp only at rest
    split at rest
    · cases rest
    · exact Except.ok.inj rest
  refine Schema.decodeStrictEncoded small increasing (Schema.validWide (Schema.decodeValid whole decoded)) ?_ (by simpa using short)
  rw [Schema.encodeWide,encoded]

open Blockchain (asciiText)

theorem aggregateIncreasing : schema.Increasing 0 := by
  simp [schema,Schema.Increasing,Kind.Increasing]

theorem aggregateValid {c : AggregateCommit} (height : c.height < 4294967296) : schema.Valid text c.value :=
  ⟨height,trivial,trivial,trivial⟩

theorem flatStrictCanonicalSample :
    AggregateCommit.schema.encode asciiText (AggregateCommit.value ⟨5,[7],[]⟩) = some [8,5,18,1,7,26,0] ↔
      AggregateCommit.schema.wide.decodeStrict asciiText [8,5,18,1,7,26,0] =
        .ok (AggregateCommit.schema.widen (AggregateCommit.value ⟨5,[7],[]⟩)) :=
  (flatStrictCanonical (mem_cons_self ..) (by decide) (Schema.decodeStrictEncoded (by decide) aggregateIncreasing
    (aggregateValid (by decide)) (by decide +kernel) (by decide))).1

theorem cutHeightAccepted :
    (AggregateCommit.schema.decodeStrict asciiText [8,5,18,0,26,0]).map AggregateCommit.ofValue = .ok ⟨5,[],[]⟩ ∧
      (AggregateCommit.schema.decodeStrict asciiText [8,133,128,128,128,16,18,0,26,0]).map AggregateCommit.ofValue =
        .ok ⟨5,[],[]⟩ ∧ AggregateCommit.schema.encode asciiText (AggregateCommit.value ⟨5,[],[]⟩) = some [8,5,18,0,26,0] :=
  ⟨by decide +kernel,by decide +kernel,by decide +kernel⟩

/-- A reader that went on from `r`: over the same data, not back and not outside. -/
structure Follows (r next : Reader) : Prop where
  same : next.data = r.data
  grows : r.index ≤ next.index
  within : next.index ≤ r.data.length

theorem Follows.trans {next} (first : Follows r m) (second : Follows m next) : Follows r next :=
  ⟨second.same.trans first.same,first.grows.trans second.grows,first.same ▸ second.within⟩

theorem Follows.inside {next} (went : Follows r next) : next.index ≤ next.data.length := went.same ▸ went.within

/-- What a reading from `r` does: it crashes exactly for the reason, and a result leaves it further on. -/
structure Outcome {α : Type} (r : Reader) (reason : Prop) (x : Except CodecError (α × Reader)) : Prop where
  crash : x = .error .indexOutOfRange ↔ reason
  follows : ∀ a next, x = .ok (a, next) → Follows r next

section
variable {α β : Type} {r : Reader}

theorem Outcome.because {x : Except CodecError (α × Reader)} (outcome : Outcome r reason x) (same : whole ↔ reason) :
    Outcome r whole x := ⟨outcome.crash.trans same.symm,outcome.follows⟩

theorem Outcome.after {x : Except CodecError (α × Reader)} (outcome : Outcome m reason x) (went : Follows r m) :
    Outcome r reason x := ⟨outcome.crash,fun a next ok => went.trans (outcome.follows a next ok)⟩

theorem Outcome.stays (inside : r.index ≤ r.data.length) (a : α) : Outcome r False (.ok (a,r)) :=
  ⟨by simp,fun _ _ ok => by cases ok; exact ⟨rfl,le_refl _,inside⟩⟩

theorem Outcome.fails (other : e ≠ .indexOutOfRange) : Outcome r False (.error e : Except CodecError (α × Reader)) :=
  ⟨by simpa using other,fun _ _ ok => by cases ok⟩

theorem crashBind {γ δ : Type} {x : Except CodecError γ} {f : γ → Except CodecError δ} :
    x >>= f = .error .indexOutOfRange ↔ x = .error .indexOutOfRange ∨ ∃ a, x = .ok a ∧ f a = .error .indexOutOfRange := by
  cases x <;> simp [bind,Except.bind]

theorem Outcome.bind {x : Except CodecError (α × Reader)} {f : α × Reader → Except CodecError (β × Reader)}
    {whole : Prop} (first : Outcome r reason x) (later : α → Reader → Prop) (rest : ∀ a m, x = .ok (a,m) → Outcome m (later a m) (f (a,m)))
    (same : whole ↔ reason ∨ ∃ a m, x = .ok (a,m) ∧ later a m) : Outcome r whole (x >>= f) := by
  refine ⟨?_,fun b next ok => ?_⟩
  · rw [crashBind,first.crash,same,Prod.exists]
    exact or_congr_right (exists_congr (fun a => exists_congr (fun m =>
      and_congr_right (fun ok => (rest a m ok).crash))))
  · obtain ⟨⟨a,m⟩,ok,after⟩ := bindOk ok
    exact (first.follows a m ok).trans ((rest a m ok).follows b next after)

theorem Outcome.quiet {x : Except CodecError (α × Reader)} {f : α × Reader → Except CodecError (β × Reader)}
    (first : Outcome r reason x) (rest : ∀ a m, x = .ok (a,m) → Outcome m False (f (a,m))) : Outcome r reason (x >>= f) :=
  first.bind _ rest (by simp)

theorem Outcome.map {x : Except CodecError (α × Reader)} (outcome : Outcome r reason x) (g : α → β) :
    Outcome r reason (x.map (fun v => (g v.1,v.2))) := by
  refine ⟨Iff.trans ?_ outcome.crash,fun b next ok => ?_⟩
  · cases x <;> simp [Except.map]
  · obtain ⟨⟨a,m⟩,read,same⟩ := mapOk ok
    cases same
    exact outcome.follows a m read

theorem Reads.follows {next} (reads : Reads r written next) (pos : 0 < written.length) :
    Follows r next ∧ r.index < next.index := by
  obtain ⟨front,rfl⟩ := reads
  have fits := front.length_le
  rw [length_drop] at fits
  exact ⟨⟨rfl,by simp only; omega,by simp only; omega⟩,by simp only; omega⟩

theorem readUintLoopError (offset n : Nat) : readUintLoop data offset n index shift result ≠ .error .indexOutOfRange := by
  induction n generalizing index shift result with
  | zero => simp [readUintLoop]
  | succ n ih =>
    unfold readUintLoop
    split
    · simp
    simp only
    split
    · simp
    · split
      · split <;> simp
      · exact ih

theorem varintReads (data : Bytes) (offset : Nat) :
    (∀ v k, readUint data offset = .ok (v, k) ↔ v < 2 ^ 64 ∧ k = (putUvarint v).length ∧ (data.drop offset).take k = putUvarint v) ∧
      (∀ v k, readUint data offset = .ok (v, k) → offset + k ≤ data.length) ∧ readUint data offset ≠ .error .indexOutOfRange := by
  refine ⟨fun v k => ?_,fun v k ok => ?_,readUintLoopError offset 10⟩
  · rw [readUintIff]
    constructor
    · rintro ⟨small,rfl,here⟩
      exact ⟨small,rfl,(prefix_iff_eq_take.mp here).symm⟩
    · rintro ⟨small,rfl,same⟩
      exact ⟨small,rfl,prefix_iff_eq_take.mpr same.symm⟩
  · obtain ⟨_,rfl,here⟩ := readUintIff.mp ok
    have fits := here.length_le
    have pos := putUvarintPos v
    rw [length_drop] at fits
    omega

theorem uintFollows {next} (ok : r.uint = .ok (n,next)) : Follows r next ∧ r.index < next.index :=
  (uintIff.mp ok).2.follows (putUvarintPos n)

theorem uintOutcome (r : Reader) : Outcome r False r.uint := by
  refine ⟨iff_false_intro (fun crash => ?_),fun n next ok => (uintFollows ok).1⟩
  rcases crashBind.mp crash with number | ⟨_,_,rest⟩
  · exact readUintLoopError _ 10 number
  · cases rest

theorem checkFollows {next} (ok : r.check fieldNumber wireType = .ok next) : Follows r next ∧ r.index < next.index :=
  (checkReads ok).2.follows (putUvarintPos _)

theorem checkError : r.check fieldNumber wireType ≠ .error .indexOutOfRange := by
  unfold Reader.check Reader.peekKey readKey
  split
  · simp
  simp only [ne_eq,crashBind,not_or,not_exists,not_and]
  refine ⟨⟨readUintLoopError _ 10,fun _ _ => by simp⟩,fun key _ => ⟨?_,fun parsed _ => ?_⟩⟩ <;> split <;> simp
  split <;> simp

theorem sintOutcome (r : Reader) : Outcome r False r.sint := by
  refine (uintOutcome r).quiet (fun n next ok => ?_)
  have inside := (uintFollows ok).1.inside
  simp only
  split <;> exact .stays inside _

theorem bytesOutcome (r : Reader) : Outcome r False r.bytes := by
  refine (uintOutcome r).quiet (fun size next ok => ?_)
  have inside := (uintFollows ok).1.inside
  simp only
  split
  · exact .fails (by simp)
  · refine ⟨by simp,fun d last ok => ?_⟩
    cases ok
    exact ⟨rfl,by simp only; omega,by simp only; omega⟩

theorem stringOutcome (r : Reader) : Outcome r False (r.string text) := by
  refine (bytesOutcome r).quiet (fun d next ok => ?_)
  have inside := ((bytesOutcome r).follows d next ok).inside
  simp only
  split
  · exact .fails (by simp)
  · split
    · exact .stays inside _
    · exact .fails (by simp)

theorem boolOutcome (r : Reader) : Outcome r (r.data.length ≤ r.index) r.bool := by
  refine ⟨?_,fun b next ok => ((boolIff.mp ok).follows Nat.one_pos).1⟩
  rw [← getElem?_eq_none_iff]
  unfold Reader.bool
  split
  · rename_i absent
    simp [absent]
  · rename_i present
    rw [present]
    split <;> simp

section
variable {read : Reader → Except CodecError (α × Reader)} {reason : Reader → Prop}

/-- The key of the field is next, and what holds of the reader after it. -/
def Checked (fieldNumber wireType : Nat) (holds : Reader → Prop) (r : Reader) : Prop :=
  ∃ m, r.check fieldNumber wireType = .ok m ∧ holds m

theorem singleOutcome {default : α} (inside : r.index ≤ r.data.length)
    (content : ∀ m, r.check fieldNumber wireType = .ok m → Outcome m (reason m) (read m)) :
    Outcome r (Checked fieldNumber wireType reason r) (r.single fieldNumber wireType strict default read) := by
  unfold Reader.single
  split
  · rename_i m checked
    exact ((content m checked).after (checkFollows checked).1).because (by simp [Checked,checked])
  · rename_i e failed
    have other : e ≠ .indexOutOfRange := fun same => checkError (same ▸ failed)
    split
    · exact (Outcome.stays inside _).because (by simp [Checked,failed])
    · exact (Outcome.fails other).because (by simp [Checked,failed])

/-- One element of a repeated field is read. -/
def Element (fieldNumber : Nat) (read : Reader → Except CodecError (α × Reader)) (r next : Reader) : Prop :=
  ∃ m x, r.check fieldNumber wireType2 = .ok m ∧ read m = .ok (x, next)

/-- One value of a packed array that ends at `stop` is read. -/
def Item (read : Reader → Except CodecError (α × Reader)) (stop : Int) (r next : Reader) : Prop :=
  (r.index : Int) < stop ∧ ∃ x, read r = .ok (x, next)

def Reached (step : Reader → Reader → Prop) (reason : Reader → Prop) (r : Reader) : Prop :=
  ∃ last, Relation.ReflTransGen step r last ∧ reason last

theorem reachedIff {step} : Reached step reason r ↔ reason r ∨ ∃ next, step r next ∧ Reached step reason next := by
  constructor
  · rintro ⟨last,path,holds⟩
    rcases path.cases_head with rfl | ⟨next,first,rest⟩
    · exact .inl holds
    · exact .inr ⟨next,first,last,rest,holds⟩
  · rintro (holds | ⟨next,first,last,rest,holds⟩)
    · exact ⟨r,.refl,holds⟩
    · exact ⟨last,.head first rest,holds⟩

theorem repeatedLoopOutcome (content : ∀ m, Outcome m (reason m) (read m)) (fuel : Nat) (inside : r.index ≤ r.data.length)
    (enough : r.data.length < r.index+fuel) (res : List α) :
    Outcome r (Reached (Element fieldNumber read) (Checked fieldNumber wireType2 reason) r)
      (Reader.repeatedLoop fieldNumber read fuel r res) := by
  induction fuel generalizing r res with
  | zero => omega
  | succ fuel ih =>
    unfold Reader.repeatedLoop
    split
    · split
      · rename_i e failed
        have other : e ≠ .indexOutOfRange := fun same => checkError (same ▸ failed)
        have quiet : ¬Reached (Element fieldNumber read) (Checked fieldNumber wireType2 reason) r := by
          rw [reachedIff]
          simp [Element,Checked,failed]
        split
        · exact (Outcome.stays inside _).because (iff_false_intro quiet)
        · exact (Outcome.fails other).because (iff_false_intro quiet)
      · rename_i m checked
        have went := checkFollows checked
        refine ((content m).bind (fun _ => Reached (Element fieldNumber read) (Checked fieldNumber wireType2 reason)) (fun x next ok => ?_) ?_).after went.1
        · have onward := (content m).follows x next ok
          have grown := onward.grows
          have same := (went.1.trans onward).same
          exact ih onward.inside (by rw [same]; omega) _
        · rw [reachedIff]
          simp only [Element,Checked,checked]
          grind
    · rename_i exceeds
      have quiet : ∀ m, r.check fieldNumber wireType2 ≠ .ok m := fun m ok => exceeds (checkReads ok).1
      refine (Outcome.stays inside _).because (iff_false_intro ?_)
      rw [reachedIff]
      simp [Element,Checked,quiet]

theorem repeatedOutcome (content : ∀ m, Outcome m (reason m) (read m)) (inside : r.index ≤ r.data.length) :
    Outcome r (Reached (Element fieldNumber read) (Checked fieldNumber wireType2 reason) r) (r.repeated fieldNumber read) :=
  repeatedLoopOutcome content _ inside (by omega) []

theorem noneChecked : False ↔ Checked fieldNumber wireType (fun _ => False) r := by simp [Checked]

theorem noneReached {step} : False ↔ Reached step (Checked fieldNumber wireType (fun _ => False)) r := by simp [Reached,Checked]

theorem packedLoopOutcome (content : ∀ m, Outcome m (reason m) (read m)) (grows : ∀ m x next, read m = .ok (x,next) → m.index < next.index)
    (stop : Int) (fuel : Nat) (inside : r.index ≤ r.data.length) (enough : r.data.length < r.index+fuel) (res : List α) :
    Outcome r (Reached (Item read stop) (fun m => (m.index : Int) < stop ∧ reason m) r) (Reader.packedLoop read stop fuel r res) := by
  induction fuel generalizing r res with
  | zero => omega
  | succ fuel ih =>
    unfold Reader.packedLoop
    split
    · rename_i more
      refine (content r).bind (fun _ => Reached (Item read stop) (fun m => (m.index : Int) < stop ∧ reason m)) (fun x next ok => ?_) ?_
      · have onward := (content r).follows x next ok
        have grown := grows r x next ok
        exact ih onward.inside (by rw [onward.same]; omega) _
      · rw [reachedIff]
        simp only [Item,more]
        grind
    · rename_i exceeds
      refine (Outcome.stays inside _).because (iff_false_intro ?_)
      rw [reachedIff]
      simp [Item,exceeds]

/-- What holds of the reader inside a nested message. -/
def Entered (holds : Reader → Prop) (r : Reader) : Prop :=
  ∃ size after, r.uint = .ok (size, after) ∧ holds {after with stop := int (after.index + size)}

theorem nestedOutcome (content : ∀ m, m.index ≤ m.data.length → Outcome m (reason m) (read m)) (r : Reader) :
    Outcome r (Entered reason r) (Reader.nested read r) := by
  refine (uintOutcome r).bind (fun size after => reason {after with stop := int (after.index+size)}) (fun size after ok => ?_) (by simp [Entered])
  have inside := (uintFollows ok).1.inside
  have inner := content {after with stop := int (after.index+size)} inside
  have entered : Follows after {after with stop := int (after.index+size)} := ⟨rfl,le_refl _,inside⟩
  refine Outcome.quiet (inner.after entered) (fun x next done => ?_)
  refine ⟨by simp,fun y last same => ?_⟩
  have onward := inner.follows x next done
  cases same
  exact ⟨onward.same.symm,le_refl _,onward.inside⟩

end

/-- The bytes of one packed value: only the last is below 128. -/
def Terminated (written : Bytes) : Prop :=
  ∃ front last, written = front ++ [last] ∧ (∀ b ∈ front, 128 ≤ b.toNat) ∧ last.toNat < 128

theorem uvarintLoopTerminated (n : Nat) (small : x < 2^(7*n+1)) : Terminated (putUvarintLoop n x) := by
  induction n generalizing x with
  | zero =>
    refine ⟨[],UInt8.ofNat x,rfl,by simp,?_⟩
    rw [byteToNat (by omega)]
    omega
  | succ n ih =>
    by_cases last : x < 128
    · exact ⟨[],UInt8.ofNat x,by simp [putUvarintLoop,last],by simp,by rw [byteToNat (by omega)]; omega⟩
    have fits : x/128 < 2^(7*n+1) := by
      rw [show 7*(n+1)+1 = 7*n+1+7 by omega,Nat.pow_add] at small
      omega
    obtain ⟨front,b,rest,high,low⟩ := ih fits
    refine ⟨UInt8.ofNat (x % 128+128)::front,b,?_,forall_mem_cons.mpr ⟨?_,high⟩,low⟩
    · rw [putUvarintLoopMore (by omega),rest,cons_append]
    · rw [byteToNat (by omega)]
      omega

theorem Packed.readTerminated (item : Packed) {m next v} (ok : item.read m = .ok (v,next)) :
    ∃ written, Reads m written next ∧ Terminated written := by
  have uint : ∀ {n}, m.uint = .ok (n,next) → ∃ written, Reads m written next ∧ Terminated written := fun ok =>
    ⟨_,(uintIff.mp ok).2,uvarintLoopTerminated 9 ((uintIff.mp ok).1)⟩
  cases item with
  | bool => exact ⟨_,boolIff.mp ok,[],_,rfl,by simp,by cases v <;> decide⟩
  | uint32 =>
    obtain ⟨⟨n,last⟩,read,same⟩ := mapOk ok
    cases same
    exact uint read
  | uint64 => exact uint ok
  | int64 =>
    obtain ⟨⟨n,last⟩,read,rest⟩ := bindOk ok
    simp only at rest
    split at rest <;> cases rest <;> exact uint read

theorem Packed.readGrows (item : Packed) (m : Reader) (v next) (ok : item.read m = .ok (v,next)) : m.index < next.index := by
  obtain ⟨written,reads,front,last,rfl,_⟩ := item.readTerminated ok
  exact (reads.follows (by simp)).2

def Packed.MissesBool : Packed → Reader → Prop
  | .bool, m => m.data.length ≤ m.index
  | _, _ => False

theorem Packed.outcome (item : Packed) (m : Reader) : Outcome m (item.MissesBool m) (item.read m) := by
  cases item with
  | bool => exact boolOutcome m
  | uint32 => exact (uintOutcome m).map u32
  | uint64 => exact uintOutcome m
  | int64 => exact sintOutcome m

section
variable (text : Normalizer)

/-- What the reader of a message field is given. -/
def Schema.readNested (fields : Schema) (r : Reader) : Except CodecError (Option fields.Value × Reader) :=
  (Reader.nested (fun r => fields.decodeFromReader text false r) r).map (fun v => (some v.1, v.2))

mutual
/-- The reading of a field comes to a bool with no byte left: the key of a bool ends the data, or the
data ends before the declared end of an array of bools. -/
def Kind.MissesBool : Kind → Nat → Reader → Prop
  | .bool, number, r => Checked number wireType0 (fun m => m.data.length ≤ m.index) r
  | .packedArray item, number, r =>
    Checked number wireType2 (fun m => ∃ size start, m.uint = .ok (size, start) ∧
      Reached (Item item.read (int (start.index + size))) (fun m => (m.index : Int) < int (start.index + size) ∧ item.MissesBool m) start) r
  | .message fields, number, r => Checked number wireType2 (Entered (fun m => fields.MissesBool false m)) r
  | .messageArray fields, number, r =>
    Reached (Element number (fields.readNested text)) (Checked number wireType2 (Entered (fun m => fields.MissesBool false m))) r
  | _, _, _ => False

def Schema.MissesBool : Schema → Bool → Reader → Prop
  | .nil, _, _ => False
  | .cons number kind rest, strict, r =>
    kind.MissesBool number r ∨ ∃ x next, kind.read text number strict r = .ok (x, next) ∧ rest.MissesBool strict next
end

end

mutual
theorem Kind.readOutcome (kind : Kind) (number : Nat) (strict : Bool) {r} (inside : r.index ≤ r.data.length) :
    Outcome r (kind.MissesBool text number r) (kind.read text number strict r) := by
  match kind with
  | .bool => exact singleOutcome inside (fun m _ => boolOutcome m)
  | .uint32 => exact ((singleOutcome inside (fun m _ => uintOutcome m)).map u32).because noneChecked
  | .uint64 => exact (singleOutcome inside (fun m _ => uintOutcome m)).because noneChecked
  | .int32 =>
    exact ((singleOutcome inside (fun m _ => sintOutcome m)).map (fun v => Int.bmod v 4294967296)).because noneChecked
  | .int64 => exact (singleOutcome inside (fun m _ => sintOutcome m)).because noneChecked
  | .bytes => exact (singleOutcome inside (fun m _ => bytesOutcome m)).because noneChecked
  | .string => exact (singleOutcome inside (fun m _ => stringOutcome m)).because noneChecked
  | .message fields =>
    exact singleOutcome inside (fun m _ => (nestedOutcome (fun m within => Schema.decodeOutcome fields false within) m).map some)
  | .bytesArray => exact (repeatedOutcome bytesOutcome inside).because noneReached
  | .stringArray => exact (repeatedOutcome stringOutcome inside).because noneReached
  | .packedArray item =>
    simp only [Kind.read,item.readArrayPacked,packedSingle]
    refine singleOutcome inside (fun m _ => ?_)
    exact (uintOutcome m).bind _ (fun size start ok =>
      packedLoopOutcome item.outcome item.readGrows _ _ (uintFollows ok).1.inside (by omega) []) (by simp)
  | .messageArray fields =>
    exact repeatedOutcome (fun m => (nestedOutcome (fun m within => Schema.decodeOutcome fields false within) m).map some) inside

theorem Schema.decodeOutcome (fields : Schema) (strict : Bool) {r} (inside : r.index ≤ r.data.length) :
    Outcome r (fields.MissesBool text strict r) (fields.decodeFromReader text strict r) := by
  match fields with
  | .nil => exact .stays inside ()
  | .cons number kind rest =>
    have first := Kind.readOutcome kind number strict inside
    refine first.bind (fun _ => rest.MissesBool text strict) (fun x next ok => ?_) Iff.rfl
    have inner := (first.follows x next ok).inside
    have others := Schema.decodeOutcome rest strict inner
    exact others.quiet (fun xs last ok => .stays (others.follows xs last ok).inside _)
end

end

theorem newInside (data : Bytes) : (Reader.new data).index ≤ (Reader.new data).data.length := Nat.zero_le _

theorem decodeCrashIff (fields : Schema) (data : Bytes) :
    (fields.decode text data = .error .indexOutOfRange ↔ fields.MissesBool text false (Reader.new data)) ∧
      (fields.decodeStrict text data = .error .indexOutOfRange ↔ fields.MissesBool text true (Reader.new data)) := by
  have outcome := fun strict => @Schema.decodeOutcome text fields strict _ (newInside data)
  refine ⟨?_,?_⟩
  · rw [← (outcome false).crash]
    exact crashBind.trans (or_iff_left (by simp))
  · rw [← (outcome true).crash]
    refine crashBind.trans (or_iff_left ?_)
    rintro ⟨v,_,rest⟩
    simp only at rest
    split at rest <;> cases rest

theorem mapMNoCrash {α : Type} {read : Bytes → Except CodecError α} (each : ∀ d, read d ≠ .error .indexOutOfRange)
    (datas : List Bytes) : datas.mapM read ≠ .error .indexOutOfRange := by
  induction datas with
  | nil => simp [pure,Except.pure]
  | cons d rest ih => simp [mapM_cons,crashBind,each d,ih,pure,Except.pure]

open Blockchain

theorem encodedNoCrash {fields : Schema} (small : ∀ number ∈ fields.numbers, number < 2^32) (x : fields.Value) :
    encodedOr (fields.encode text x) ≠ .error .indexOutOfRange := by
  obtain ⟨data,enc⟩ := @Schema.encodeSome text fields small x
  rw [enc]
  simp [encodedOr]

theorem newTransactionNoCrash (sha : Bytes → Bytes) (val : Bytes) : newTransaction text sha val ≠ .error .indexOutOfRange := by
  have quiet : ¬Transaction.schema.MissesBool text true (Reader.new val) := by
    simp [Transaction.schema,Schema.MissesBool,Kind.MissesBool]
  rw [← (decodeCrashIff _ _).2] at quiet
  simp only [newTransaction,ne_eq,crashBind,not_or,not_exists,not_and]
  exact ⟨quiet,fun x _ => ⟨encodedNoCrash (by decide) _,fun _ _ => by simp⟩⟩

theorem newBlockAssetNoCrash (val : Bytes) : newBlockAsset text val ≠ .error .indexOutOfRange := by
  have quiet : ¬BlockAsset.schema.MissesBool text true (Reader.new val) := by
    simp [BlockAsset.schema,Schema.MissesBool,Kind.MissesBool]
  rw [← (decodeCrashIff _ _).2] at quiet
  simp [newBlockAsset,crashBind,quiet]

theorem newBlockHeaderCrashIff (sha : Bytes → Bytes) (value : Bytes) : newBlockHeader text sha value = .error .indexOutOfRange ↔
    BlockHeader.schema.MissesBool text false (Reader.new value) := by
  rw [newBlockHeader,crashBind,(decodeCrashIff _ _).1]
  refine or_iff_left ?_
  rintro ⟨x,_,rest⟩
  rcases crashBind.mp rest with encoded | ⟨_,_,done⟩
  · exact encodedNoCrash (by decide) _ encoded
  · cases done

/-- A decoding crashes exactly where it comes to a bool with no byte left. -/
theorem decodersCrashIff (text : Normalizer) (sha : Bytes → Bytes) :
    (∀ (fields : Schema) data,
      (fields.decode text data = .error .indexOutOfRange ↔ fields.MissesBool text false (Reader.new data)) ∧
      (fields.decodeStrict text data = .error .indexOutOfRange ↔ fields.MissesBool text true (Reader.new data))) ∧
    (∀ val, newTransaction text sha val ≠ .error .indexOutOfRange) ∧ (∀ val, newEvent text val ≠ .error .indexOutOfRange) ∧
    (∀ val, newBlock text sha val = .error .indexOutOfRange ↔ ∃ header rest, RawBlock.schema.decodeStrict text val = .ok (header, rest) ∧
      BlockHeader.schema.MissesBool text false (Reader.new header)) := by
  refine ⟨decodeCrashIff,newTransactionNoCrash sha,fun val => ?_,fun val => ?_⟩
  · have quiet : ¬Event.schema.MissesBool text false (Reader.new val) := by
      simp [Event.schema,Schema.MissesBool,Kind.MissesBool]
    rw [← (decodeCrashIff _ _).1] at quiet
    cases decoded : Event.schema.decode text val <;> simp_all [newEvent,Except.map]
  · have quiet : ¬RawBlock.schema.MissesBool text true (Reader.new val) := by
      simp [RawBlock.schema,Schema.MissesBool,Kind.MissesBool]
    rw [← (decodeCrashIff _ _).2] at quiet
    rw [newBlock,crashBind,or_iff_right quiet]
    constructor
    · rintro ⟨⟨header,rest⟩,decoded,crash⟩
      refine ⟨header,rest,decoded,?_⟩
      rcases crashBind.mp crash with first | ⟨_,_,later⟩
      · exact (newBlockHeaderCrashIff sha header).mp first
      rcases crashBind.mp later with assets | ⟨_,_,later⟩
      · exact absurd assets (mapMNoCrash newBlockAssetNoCrash _)
      rcases crashBind.mp later with txs | ⟨_,_,done⟩
      · exact absurd txs (mapMNoCrash (newTransactionNoCrash sha) _)
      · cases done
    · rintro ⟨header,rest,decoded,misses⟩
      exact ⟨(header,rest),decoded,crashBind.mpr (.inl ((newBlockHeaderCrashIff sha header).mpr misses))⟩

def StandardTransactionEvent.schema : Schema := .cons 1 .bool .nil

def StandardTransactionEvent.ofValue : StandardTransactionEvent.schema.Value → Bool
  | (success, _) => success

theorem lastBoolCrashes :
    (StandardTransactionEvent.schema.decode asciiText [8]).map StandardTransactionEvent.ofValue = .error .indexOutOfRange ∧
      (StandardTransactionEvent.schema.decodeStrict asciiText [8]).map StandardTransactionEvent.ofValue = .error .indexOutOfRange ∧
      newBlock asciiText id [10,1,96] = .error .indexOutOfRange :=
  ⟨by decide +kernel,by decide +kernel,by decide +kernel⟩

/-- The positions at which the fields of a message end, as long as the fields are read. -/
def Schema.ends (text : Normalizer) : Schema → Reader → List Nat
  | .nil, _ => []
  | .cons number kind rest, r =>
    match kind.read text number false r with
    | .ok (_, next) => next.index :: rest.ends text next
    | .error _ => []

theorem sintRead {next} (ok : r.sint = .ok (x,next)) : ∃ res, res < 2^64 ∧ Reads r (putUvarint res) next ∧
    x = if res % 2 = 0 then ((res/2 : Nat) : Int) else -(u64 (res+1)/2 : Nat) := by
  obtain ⟨⟨res,middle⟩,read,ok⟩ := bindOk ok
  obtain ⟨small,reads⟩ := uintIff.mp read
  simp only at ok
  split at ok
  · rename_i even
    cases ok
    exact ⟨res,small,reads,(if_pos even).symm⟩
  · rename_i odd
    cases ok
    exact ⟨res,small,reads,(if_neg odd).symm⟩

theorem signedRoundTripIff (v : Int) (above : -2 ^ 63 ≤ v) (below : v < 2 ^ 63) (data : Bytes) :
    ((Reader.new (putVarint v)).sint = .ok (v, {Reader.new (putVarint v) with index := (putVarint v).length}) ↔ v ≠ -2 ^ 63) ∧
      ∀ x next, (Reader.new data).sint = .ok (x, next) →
        (putVarint x = data.take next.index ↔ data.take next.index ≠ putVarint (-2 ^ 63)) := by
  refine ⟨⟨?_,fun other => sintWritten (by omega) below ⟨prefix_refl _,by simp [Reader.new]⟩⟩,fun x next ok => ?_⟩
  · rintro ok rfl
    revert ok
    decide +kernel
  obtain ⟨res,small,reads,rfl⟩ := sintRead ok
  have consumed : data.take next.index = putUvarint res := by
    rw [reads.next]
    simpa [Reader.new] using (prefix_iff_eq_take.mp reads.here).symm
  rw [consumed]
  by_cases greatest : res = 2 ^ 64 - 1
  · rw [greatest]
    exact iff_of_false (by decide +kernel) (by decide +kernel)
  · have same : ∀ n, n < 2 ^ 64 → putUvarint res = putUvarint n → res = n := by
      intro n inside eq
      have twice := (uintIff.mpr ⟨small,reads⟩).symm.trans (uintIff.mpr ⟨inside,eq ▸ reads⟩)
      exact congrArg Prod.fst (Except.ok.inj twice)
    refine iff_of_true ?_ (fun eq => greatest (same _ (by decide) eq))
    unfold putVarint
    split <;> split <;> congr 1 <;> simp_all [u64] <;> omega

theorem signedRoundTripSample : (Reader.new (putVarint (-3))).sint = .ok (-3, ⟨[5], 1, 1⟩) :=
  (signedRoundTripIff (-3) (by decide) (by decide) []).1.mpr (by decide)

theorem leastSignedLost : (Reader.new (putVarint (-2 ^ 63))).sint =
    .ok (0, ⟨[255, 255, 255, 255, 255, 255, 255, 255, 255, 1], 10, 10⟩) ∧ putVarint 0 = [0] := by
  decide +kernel

end Codec
end LiskEngine
