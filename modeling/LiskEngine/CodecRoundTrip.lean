import LiskEngine.CodecCanonical

/-! Decoding an encoded message gives it back. The induction is over the message
type; each lemma speaks about the bytes that stand next in the reader's data and
the bytes left after them. -/
namespace LiskEngine.Codec
open Varint List Option Schema Writer

def Reader.skip (r : Reader) (n : Nat) : Reader := {r with index := r.index + n}

structure Window (r : Reader) (inside outside : Bytes) : Prop where
  rest : r.data.drop r.index = inside ++ outside
  stop : r.stop = r.index + inside.length
  within : r.index ≤ r.data.length
  short : r.data.length < 9223372036854775808

theorem Window.fits (window : Window r inside outside) : r.index+inside.length ≤ r.data.length := by
  have fit := window.within
  have := congrArg length window.rest
  rw [length_drop,length_append] at this
  omega

section
variable {r a b outside} (window : Window r (a ++ b) outside)
include b outside window

theorem Window.endSmall : int (r.index+a.length) = r.index+a.length := by
  have fits := window.fits
  have short := window.short
  rw [length_append] at fits
  exact intSmall (by omega) (by omega)

theorem Window.reads :
    Reads r a (r.skip a.length) := ⟨⟨b ++ outside,by rw [window.rest,append_assoc]⟩,rfl⟩

theorem Window.skip : Window (r.skip a.length) b outside where
  rest := by
    unfold Reader.skip
    rw [← drop_drop,window.rest,append_assoc,drop_left]
  stop := by
    have := window.stop
    simp only [Reader.skip,length_append] at this ⊢
    push_cast at this ⊢
    omega
  within := by
    have fits := window.fits
    rw [length_append] at fits
    simp only [Reader.skip]
    omega
  short := window.short

end

theorem skipSkip (r : Reader) (a b : Nat) : (r.skip a).skip b = r.skip (a+b) := by
  simp [Reader.skip,add_assoc]

def Ends (fieldNumber : Nat) (tail : Bytes) : Prop :=
  tail = [] ∨ ∃ number wireType rest, number ≠ fieldNumber ∧ number < 2 ^ 32 ∧ (wireType = 0 ∨ wireType = 2) ∧
    tail = putUvarint (8 * number + wireType) ++ rest

theorem checkEnds {tail} (window : Window r tail outside) (ends : Ends fieldNumber tail) (wireType : Nat) :
    ∃ e, r.check fieldNumber wireType = .error e ∧ strictError e = true := by
  unfold Reader.check
  have stop := window.stop
  rcases ends with rfl | ⟨number,wire,rest,other,small,allowed,rfl⟩
  · refine ⟨.fieldNumberNotFound,?_,rfl⟩
    rw [if_pos (by rw [stop]; simp)]
  refine ⟨.unexpectedFieldNumber,?_,rfl⟩
  have pos := putUvarintPos (8*number+wire)
  have plain : int (8*number+wire : Nat) = 8*(number : Int)+wire :=
    (intSmall (by omega) (by omega)).trans (by push_cast; rfl)
  have peeked := peekKeyIff.mpr ⟨8*number+wire,by omega,rfl,rfl,window.reads.here⟩
  rw [plain] at peeked
  have parsed : readKey (8*(number : Int)+wire) = .ok (↑number,↑wire) := readKeyIff.mpr ⟨by omega,rfl⟩
  rw [if_neg (by rw [stop,length_append]; omega),peeked]
  simp only [bind,Except.bind,parsed]
  rw [if_pos (by omega)]

theorem checkWritten (wire : wireType = 0 ∨ wireType = 2) (small : fieldNumber < 2^32)
    (window : Window r (putUvarint (8*fieldNumber+wireType) ++ rest) outside) :
    r.check fieldNumber wireType = .ok (r.skip (putUvarint (8*fieldNumber+wireType)).length) := by
  refine (checkIff wire small).mpr ⟨?_,window.reads⟩
  have pos := putUvarintPos (8*fieldNumber+wireType)
  rw [window.stop,length_append]
  omega

section
variable {α : Type} {read : Reader → Except CodecError (α × Reader)} {fieldNumber wireType : Nat}

def Recovers (read : Reader → Except CodecError (α × Reader)) (body : Bytes) (x : α) : Prop :=
  ∀ r tail outside, Window r (body ++ tail) outside → read r = .ok (x, r.skip body.length)

theorem singleWritten {body x default} (recovers : Recovers read body x) (wire : wireType = 0 ∨ wireType = 2)
    (small : fieldNumber < 2^32) {put} (field : field wireType fieldNumber body = some put) (strict : Bool) :
    Recovers (·.single fieldNumber wireType strict default read) put x := by
  intro r tail outside window
  rw [fieldSmall wire small] at field
  cases field
  rw [append_assoc] at window
  simp only [Reader.single,checkWritten wire small window]
  rw [recovers _ tail outside window.skip,skipSkip,length_append]

section
variable {body : α → Bytes} (small : fieldNumber < 2 ^ 32)
include small

theorem concatField (fields : Writer.concat ((x::rest).map (fun x => Writer.field wireType2 fieldNumber (body x))) = some written) :
    ∃ others, Writer.concat (rest.map (fun x => Writer.field wireType2 fieldNumber (body x))) = some others ∧
      written = putUvarint (8*fieldNumber+wireType2) ++ (body x ++ others) := by
  have head := fieldSmall wireType2Allowed small (body x)
  simp only [map_cons,Writer.concat,bind,bind_eq_some_iff] at fields
  obtain ⟨a,first,b,others,joined⟩ := fields
  rw [head] at first
  cases first
  cases joined
  exact ⟨b,others,append_assoc _ _ _⟩

theorem repeatedLoopWritten (recovers : ∀ x ∈ values, Recovers read (body x) x)
    (fields : Writer.concat (values.map (fun x => Writer.field wireType2 fieldNumber (body x))) = some written) {tail}
    (window : Window r (written ++ tail) outside) (ends : Ends fieldNumber tail) (enough : values.length < fuel)
    (res : List α) : Reader.repeatedLoop fieldNumber read fuel r res = .ok (res ++ values,r.skip written.length) := by
  induction values generalizing r written fuel res with
  | nil =>
    cases fields
    obtain ⟨fuel,rfl⟩ : ∃ n, fuel = n+1 := ⟨fuel - 1,by simp at enough; omega⟩
    unfold Reader.repeatedLoop
    obtain ⟨e,failed,strict⟩ := checkEnds window ends wireType2
    simp [failed,strict,Reader.skip]
  | cons x rest ih =>
    obtain ⟨b,others,rfl⟩ := concatField small fields
    obtain ⟨fuel,rfl⟩ : ∃ n, fuel = n+1 := ⟨fuel - 1,by simp at enough; omega⟩
    rw [append_assoc,append_assoc] at window
    have pos := putUvarintPos (8*fieldNumber+wireType2)
    have more : (r.index : Int) < r.stop := by
      rw [window.stop,length_append]
      omega
    unfold Reader.repeatedLoop
    rw [if_pos more,checkWritten wireType2Allowed small window]
    simp only [recovers x (by simp) _ (b ++ tail) outside window.skip,bind,Except.bind]
    rw [ih (fun y mem => recovers y (by simp [mem])) others window.skip.skip (by simpa using enough)]
    simp [skipSkip,length_append,add_assoc]

theorem concatLength {vs : List α} {put}
    (fields : Writer.concat (vs.map (fun x => Writer.field wireType2 fieldNumber (body x))) = some put) : vs.length ≤ put.length := by
  induction vs generalizing put with
  | nil => simp
  | cons x rest ih =>
    obtain ⟨b,others,rfl⟩ := concatField small fields
    have pos := putUvarintPos (8*fieldNumber+wireType2)
    have := ih others
    simp only [length_cons,length_append]
    omega

theorem repeatedWritten {vs : List α} (recovers : ∀ x ∈ vs, Recovers read (body x) x) {put}
    (fields : Writer.concat (vs.map (fun x => Writer.field wireType2 fieldNumber (body x))) = some put) {r tail outside}
    (window : Window r (put ++ tail) outside) (ends : Ends fieldNumber tail) :
    r.repeated fieldNumber read = .ok (vs,r.skip put.length) := by
  have count := concatLength small fields
  have length := window.fits
  rw [length_append] at length
  have enough : vs.length < r.data.length+1 := by omega
  exact repeatedLoopWritten small recovers fields window ends enough []

end

theorem packedLoopWritten (recovers : ∀ x ∈ values, Recovers read (body x) x)
    (filled : ∀ x ∈ values, 0 < (body x).length) {tail} (window : Window r ((values.map body).flatten ++ tail) outside)
    (enough : values.length < fuel) (res : List α) : Reader.packedLoop read (r.index+(values.map body).flatten.length) fuel r res =
      .ok (res ++ values,r.skip (values.map body).flatten.length) := by
  induction values generalizing r fuel res with
  | nil =>
    obtain ⟨fuel,rfl⟩ : ∃ n, fuel = n+1 := ⟨fuel - 1,by simp at enough; omega⟩
    simp [Reader.packedLoop,Reader.skip]
  | cons x rest ih =>
    obtain ⟨fuel,rfl⟩ : ∃ n, fuel = n+1 := ⟨fuel - 1,by simp at enough; omega⟩
    have pos := filled x (by simp)
    rw [map_cons,flatten_cons,append_assoc] at window
    have fewer : rest.length < fuel := by simpa using enough
    have next := ih (fun y mem => recovers y (by simp [mem])) (fun y mem => filled y (by simp [mem]))
      window.skip fewer (res ++ [x])
    simp only [map_cons,flatten_cons,length_append]
    unfold Reader.packedLoop
    rw [if_pos (by push_cast; omega),recovers x (by simp) r _ outside window]
    simp only [bind,Except.bind]
    have shift : (r.index : Int)+((body x).length+(rest.map body).flatten.length : Nat) =
        (r.skip (body x).length).index+(rest.map body).flatten.length := by
      simp only [Reader.skip]
      push_cast
      ring
    rw [shift,next,skipSkip]
    simp

theorem flattenLength {body : α → Bytes} {vs : List α} (filled : ∀ x ∈ vs, 0 < (body x).length) :
    vs.length ≤ (vs.map body).flatten.length := by
  induction vs with
  | nil => simp
  | cons x rest ih =>
    have pos := filled x (by simp)
    have := ih (fun y mem => filled y (by simp [mem]))
    simp only [map_cons,flatten_cons,length_append,length_cons]
    omega

theorem uintRecovers (small : x < 18446744073709551616) : Recovers Reader.uint (putUvarint x) x :=
  fun _ _ _ window => uintIff.mpr ⟨small,window.reads⟩

theorem Window.contentSmall {tail} (window : Window r (bytes d ++ tail) outside) : d.length < 9223372036854775808 := by
  have length := window.fits
  have short := window.short
  simp only [bytes,length_append] at length
  omega

theorem bytesSmall (small : d.length < 9223372036854775808) : bytes d = putUvarint d.length ++ d := by
  rw [bytes,u64Small (by omega)]

theorem bytesRecovers (d : Bytes) : Recovers Reader.bytes (bytes d) d :=
  fun _ _ _ window => bytesIff.mpr ⟨by have := window.contentSmall; omega,window.reads⟩

theorem boolRecovers (b : Bool) : Recovers Reader.bool (bool b) b := fun _ _ _ window => boolIff.mpr window.reads

theorem sintRecovers (above : -9223372036854775808 < x) (below : x < 9223372036854775808) :
    Recovers Reader.sint (putVarint x) x := fun _ _ _ window => sintWritten above below window.reads

theorem stringRecovers (normal : text.isNormal s = true) : Recovers (Reader.string text) (bytes (utf8 (text.nfc s))) s := by
  intro r tail outside window
  rw [text.fixed s normal] at window ⊢
  exact stringIff.mpr ⟨normal,by have := window.contentSmall; omega,window.reads⟩

theorem mapRecovers {β : Type} (recovers : Recovers read body x) (f : α → β) :
    Recovers (fun r => (read r).map (fun v => (f v.1,v.2))) body (f x) := by
  intro r tail outside window
  simp only [recovers r tail outside window]
  rfl

theorem Packed.recovers (item : Packed) {v} (valid : item.Valid v) : Recovers item.read (item.write v) v := by
  cases item with
  | bool => exact boolRecovers v
  | uint32 =>
    have cut := mapRecovers (uintRecovers (lt_trans valid (by decide))) u32
    rwa [u32Small valid] at cut
  | uint64 => exact uintRecovers valid
  | int64 => exact sintRecovers valid.1 valid.2

theorem Packed.writePos (item : Packed) (v : item.Value) : 0 < (item.write v).length := by
  cases item with
  | bool => exact Nat.one_pos
  | uint32 | uint64 | int64 => exact putUvarintPos _

theorem nestedRecovers (decodes : ∀ r outside, Window r d outside → read r = .ok (x,r.skip d.length)) :
    Recovers (Reader.nested read) (bytes d) x := by
  intro r tail outside window
  have small := window.contentSmall
  rw [bytesSmall small] at window ⊢
  rw [append_assoc] at window
  have after := window.skip
  have inner : Window {r.skip (putUvarint d.length).length with
      stop := int ((r.skip (putUvarint d.length).length).index+d.length)} d (tail ++ outside) :=
    ⟨by rw [← append_assoc]; exact after.rest,after.endSmall,after.within,after.short⟩
  unfold Reader.nested
  rw [uintRecovers (by omega) r (d ++ tail) outside window]
  simp only [bind,Except.bind]
  rw [decodes _ _ inner]
  simp [Reader.skip,add_assoc]

def packedContent (read : Reader → Except CodecError (α × Reader)) (r : Reader) : Except CodecError (List α × Reader) := do
  let (arrayLength, r) ← r.uint
  Reader.packedLoop read (int (r.index + arrayLength)) (r.data.length + 1) r []

theorem packedSingle (read : Reader → Except CodecError (α × Reader)) (r : Reader) (fieldNumber : Nat) :
    r.packed fieldNumber read = r.single fieldNumber wireType2 false [] (packedContent read) := by
  unfold Reader.packed Reader.single
  cases r.check fieldNumber wireType2 <;> simp
  rfl

theorem packedRecovers {body : α → Bytes} {vs : List α} (recovers : ∀ x ∈ vs, Recovers read (body x) x)
    (pos : ∀ x ∈ vs, 0 < (body x).length) : Recovers (packedContent read) (bytes (vs.map body).flatten) vs := by
  intro r tail outside window
  have bounds := window.contentSmall
  rw [bytesSmall bounds] at window ⊢
  rw [append_assoc] at window
  have numbers := window.skip
  have fits := numbers.fits
  have count := flattenLength pos
  rw [length_append] at fits
  have sized := uintRecovers (by omega) _ _ outside window
  simp only [packedContent,sized,bind,Except.bind]
  rw [numbers.endSmall,packedLoopWritten recovers pos numbers (by omega) []]
  simp [skipSkip]

end

variable {text : Normalizer}

def Starts (number : Nat) (written : Bytes) : Prop :=
  written = [] ∨ ∃ wireType rest, (wireType = 0 ∨ wireType = 2) ∧ written = putUvarint (8 * number + wireType) ++ rest

theorem fieldStarts (wire : wireType = 0 ∨ wireType = 2) (small : number < 2^32)
    (ok : field wireType number body = some written) : Starts number written := by
  rw [fieldSmall wire small] at ok
  exact .inr ⟨wireType,body,wire,(some.inj ok).symm⟩

theorem concatStarts (each : ∀ part ∈ parts, ∀ put, part = some put → Starts number put)
    (ok : Writer.concat parts = some put) : Starts number put := by
  induction parts generalizing put with
  | nil => exact .inl (some.inj ok).symm
  | cons first rest ih =>
    simp only [Writer.concat,bind,bind_eq_some_iff] at ok
    obtain ⟨a,head,b,tail,joined⟩ := ok
    cases joined
    rcases each first (by simp) a head with rfl | ⟨wireType,after,wire,rfl⟩
    · exact ih (fun part mem => each part (by simp [mem])) tail
    · exact .inr ⟨wireType,after ++ b,wire,append_assoc _ _ _⟩

theorem encodableStarts (small : number < 2^32) (ok : writeEncodable number enc = some written) : Starts number written := by
  cases enc with
  | none => exact .inl (some.inj ok).symm
  | some content =>
    obtain ⟨d,_,field⟩ := bind_eq_some_iff.mp ok
    exact fieldStarts wireType2Allowed small field

theorem Kind.writeStarts {kind : Kind} {number} (small : number < 2^32) {x put}
    (ok : kind.write text number x = some put) : Starts number put := by
  cases kind with
  | bool | uint32 | uint64 | int32 | int64 => exact fieldStarts wireType0Allowed small ok
  | bytes | string => exact fieldStarts wireType2Allowed small ok
  | message fields => exact encodableStarts small ok
  | bytesArray | stringArray =>
    refine concatStarts (fun part mem bytes same => ?_) ok
    obtain ⟨d,_,field⟩ := mem_map.mp mem
    exact fieldStarts wireType2Allowed small (field.trans same)
  | packedArray item =>
    simp only [Kind.write,item.writeArrayPacked,writePacked] at ok
    split at ok
    · exact .inl (some.inj ok).symm
    · exact fieldStarts wireType2Allowed small ok
  | messageArray fields =>
    refine concatStarts (fun part mem bytes same => ?_) ok
    obtain ⟨e,_,field⟩ := mem_map.mp mem
    exact encodableStarts small (field.trans same)

theorem Schema.encodeInv (ok : (cons number kind rest).encode text (x,xs) = some written) :
    ∃ a b, kind.write text number x = some a ∧ rest.encode text xs = some b ∧ written = a ++ b := by
  simp only [encode,bind,bind_eq_some_iff] at ok
  obtain ⟨a,head,b,tail,joined⟩ := ok
  exact ⟨a,b,head,tail,(some.inj joined).symm⟩

theorem consNumbers : (∀ m ∈ (Schema.cons number kind rest).numbers, m < 2^32) ↔
    (∀ m ∈ number::kind.numbers, m < 2^32) ∧ ∀ m ∈ rest.numbers, m < 2^32 := by
  rw [Schema.numbers,← cons_append,forall_mem_append]

theorem Schema.encodeEnds {fields : Schema} {least number} (increasing : fields.Increasing least) (below : number ≤ least)
    (small : ∀ m ∈ fields.numbers, m < 2^32) {x put} (ok : fields.encode text x = some put) : Ends number put := by
  match fields with
  | .nil =>
    exact .inl (some.inj ok).symm
  | .cons m kind rest =>
    obtain ⟨x,xs⟩ := x
    obtain ⟨a,b,head,tail,rfl⟩ := encodeInv ok
    simp only [Schema.Increasing] at increasing
    obtain ⟨fit,later⟩ := consNumbers.mp small
    have here : m < 2^32 := fit m (.head _)
    rcases Kind.writeStarts here head with rfl | ⟨wireType,after,wire,rfl⟩
    · exact encodeEnds increasing.2.2 (by omega) later tail
    · exact .inr ⟨m,wireType,after ++ b,by omega,here,wire,append_assoc _ _ _⟩

theorem concatParts (ok : Writer.concat parts = some written) : ∀ part ∈ parts, ∃ bytes, part = some bytes := by
  induction parts generalizing written with
  | nil => simp
  | cons first rest ih =>
    simp only [Writer.concat,bind,bind_eq_some_iff] at ok
    obtain ⟨a,head,b,tail,_⟩ := ok
    intro part mem
    rcases mem_cons.mp mem with rfl | later
    · exact ⟨a,head⟩
    · exact ih tail part later

def Schema.content (text : Normalizer) (fields : Schema) (e : Option fields.Value) : Bytes :=
  Writer.bytes ((e.bind (fields.encode text)).getD [])

theorem messagesWritten {fields : Schema} {number} (small : number < 2^32)
    (decodes : ∀ v d, fields.Valid text v → fields.encode text v = some d → ∀ r outside, Window r d outside →
      fields.decodeFromReader text false r = .ok (v,r.skip d.length))
    {vs} (valid : ∀ e ∈ vs, ∃ v, e = some v ∧ fields.Valid text v) {put}
    (ok : Writer.concat (vs.map (fun e => Writer.writeEncodable number (e.map (fun v => fields.encode text v)))) = some put)
    {r tail outside} (window : Window r (put ++ tail) outside) (ends : Ends number tail) :
    r.readDecodables number (fun r => fields.decodeFromReader text false r) = .ok (vs,r.skip put.length) := by
  have parts : ∀ e ∈ vs, ∃ v d, e = some v ∧ fields.Valid text v ∧ fields.encode text v = some d := by
    intro e mem
    obtain ⟨v,rfl,inner⟩ := valid e mem
    obtain ⟨bytes,part⟩ := concatParts ok _ (mem_map_of_mem mem)
    obtain ⟨d,enc,_⟩ := bind_eq_some_iff.mp part
    exact ⟨v,d,rfl,inner,enc⟩
  have fieldwise : vs.map (fun e => Writer.writeEncodable number (e.map (fun v => fields.encode text v))) =
      vs.map (fun e => Writer.field wireType2 number (fields.content text e)) := by
    refine map_congr_left (fun e mem => ?_)
    obtain ⟨v,d,rfl,_,enc⟩ := parts e mem
    simp [Writer.writeEncodable,Writer.writeBytes,content,enc]
  rw [fieldwise] at ok
  refine repeatedWritten small (fun e mem => ?_) ok window ends
  obtain ⟨v,d,rfl,inner,enc⟩ := parts e mem
  have nested := nestedRecovers (fun r outside window => decodes v d inner enc r outside window)
  simpa [content,enc] using mapRecovers nested some

theorem int32Small (above : -2147483648 ≤ x) (below : x < 2147483648) : Int.bmod x 4294967296 = x := by
  rw [Int.bmod_def]
  omega

mutual
theorem Kind.readWritten (kind : Kind) {number} (small : ∀ m ∈ number::kind.numbers, m < 2^32) (increasing : kind.Increasing)
    {x} (valid : kind.Valid text x) {put} (ok : kind.write text number x = some put) {r tail outside}
    (window : Window r (put ++ tail) outside) (ends : Ends number tail) (strict : Bool) :
    kind.read text number strict r = .ok (x,r.skip put.length) := by
  have here : number < 2^32 := small number (by simp)
  match kind with
  | .bool => exact singleWritten (boolRecovers x) wireType0Allowed here ok strict r tail outside window
  | .uint32 =>
    simp only [Kind.Valid] at valid
    have single : Recovers (·.readUInt number strict) put x :=
      singleWritten (uintRecovers (by omega)) wireType0Allowed here ok strict
    have res := mapRecovers single u32 r tail outside window
    rwa [u32Small valid] at res
  | .uint64 => exact singleWritten (uintRecovers valid) wireType0Allowed here ok strict r tail outside window
  | .int32 =>
    simp only [Kind.Valid] at valid
    have single : Recovers (·.readInt number strict) put x :=
      singleWritten (sintRecovers (by omega) (by omega)) wireType0Allowed here ok strict
    have res := mapRecovers single (fun v => Int.bmod v 4294967296) r tail outside window
    simp only [int32Small valid.1 valid.2] at res
    exact res
  | .int64 => exact singleWritten (sintRecovers valid.1 valid.2) wireType0Allowed here ok strict r tail outside window
  | .bytes => exact singleWritten (bytesRecovers x) wireType2Allowed here ok strict r tail outside window
  | .string => exact singleWritten (stringRecovers valid) wireType2Allowed here ok strict r tail outside window
  | .message fields =>
    obtain ⟨v,rfl,inner⟩ := valid
    obtain ⟨d,enc,field⟩ := bind_eq_some_iff.mp ok
    have fit : ∀ m ∈ fields.numbers, m < 2^32 := (forall_mem_cons.mp small).2
    have decodes := nestedRecovers (fun _ _ window => Schema.readEncoded fields fit increasing inner enc window false)
    exact singleWritten (mapRecovers decodes some) wireType2Allowed here field strict r tail outside window
  | .bytesArray => exact repeatedWritten here (fun d _ => bytesRecovers d) ok window ends
  | .stringArray => exact repeatedWritten here (fun s mem => stringRecovers (valid s mem)) ok window ends
  | .packedArray item =>
    simp only [Kind.write,item.writeArrayPacked,writePacked] at ok
    simp only [Kind.read,item.readArrayPacked]
    split at ok
    · rename_i empty
      cases ok
      obtain ⟨e,failed,allowed⟩ := checkEnds window ends wireType2
      obtain rfl := isEmpty_iff.mp empty
      simp only [Reader.packed,failed,allowed]
      rfl
    · have content := packedRecovers (fun v mem => item.recovers (valid v mem)) (fun v _ => item.writePos v)
      exact (packedSingle _ r number).trans (singleWritten content wireType2Allowed here ok false r tail outside window)
  | .messageArray fields =>
    have fit : ∀ m ∈ fields.numbers, m < 2^32 := (forall_mem_cons.mp small).2
    exact messagesWritten here (fun v d inner enc _ _ window =>
      Schema.readEncoded fields fit increasing inner enc window false) valid ok window ends

theorem Schema.readEncoded (fields : Schema) {least} (small : ∀ m ∈ fields.numbers, m < 2^32)
    (increasing : fields.Increasing least) {x} (valid : fields.Valid text x) {put} (ok : fields.encode text x = some put)
    {r outside} (window : Window r put outside) (strict : Bool) :
    fields.decodeFromReader text strict r = .ok (x,r.skip put.length) := by
  match fields with
  | .nil =>
    cases ok
    rfl
  | .cons number kind rest =>
    obtain ⟨x,xs⟩ := x
    obtain ⟨a,b,head,tail,rfl⟩ := encodeInv ok
    obtain ⟨fit,later⟩ := consNumbers.mp small
    have ends := encodeEnds increasing.2.2 (le_refl number) later tail
    have first := Kind.readWritten kind fit increasing.2.1 valid.1 head window ends strict
    have others := Schema.readEncoded rest later increasing.2.2 valid.2 tail window.skip strict
    simp only [decodeFromReader,first,bind,Except.bind,others,skipSkip,length_append]
end

theorem fieldSome (wire : wireType = 0 ∨ wireType = 2) (small : number < 2^32) (body : Bytes) :
    ∃ put, field wireType number body = some put := ⟨_,fieldSmall wire small body⟩

theorem concatSome (each : ∀ part ∈ parts, ∃ bytes, part = some bytes) : ∃ put, Writer.concat parts = some put := by
  induction parts with
  | nil => exact ⟨[],rfl⟩
  | cons first rest ih =>
    obtain ⟨a,head⟩ := each first (by simp)
    obtain ⟨b,tail⟩ := ih (fun part mem => each part (by simp [mem]))
    exact ⟨a ++ b,concatCons head tail⟩

theorem encodableSome (small : number < 2^32) (content : ∀ c, enc = some c → ∃ d, c = some d) :
    ∃ put, writeEncodable number enc = some put := by
  cases enc with
  | none => exact ⟨[],rfl⟩
  | some c =>
    obtain ⟨d,rfl⟩ := content c rfl
    exact fieldSome wireType2Allowed small _

mutual
theorem Kind.writeSome (kind : Kind) (small : ∀ m ∈ number::kind.numbers, m < 2^32) (x : kind.Value) :
    ∃ put, kind.write text number x = some put := by
  have here : number < 2^32 := small number (by simp)
  match kind with
  | .bool | .uint32 | .uint64 | .int32 | .int64 => exact fieldSome wireType0Allowed here _
  | .bytes | .string => exact fieldSome wireType2Allowed here _
  | .message fields =>
    refine encodableSome here (fun c same => ?_)
    obtain ⟨v,_,rfl⟩ := map_eq_some_iff.mp same
    exact Schema.encodeSome fields (forall_mem_cons.mp small).2 v
  | .bytesArray | .stringArray =>
    refine concatSome (fun part mem => ?_)
    obtain ⟨d,_,rfl⟩ := mem_map.mp mem
    exact fieldSome wireType2Allowed here _
  | .packedArray item =>
    simp only [Kind.write,item.writeArrayPacked,Writer.writePacked]
    split
    · exact ⟨[],rfl⟩
    · exact fieldSome wireType2Allowed here _
  | .messageArray fields =>
    refine concatSome (fun part mem => ?_)
    obtain ⟨e,_,rfl⟩ := mem_map.mp mem
    refine encodableSome here (fun c same => ?_)
    obtain ⟨v,_,rfl⟩ := map_eq_some_iff.mp same
    exact Schema.encodeSome fields (forall_mem_cons.mp small).2 v

theorem Schema.encodeSome (fields : Schema) (small : ∀ m ∈ fields.numbers, m < 2^32) (x : fields.Value) :
    ∃ put, fields.encode text x = some put := by
  match fields with
  | .nil => exact ⟨[],by simp [encode]⟩
  | .cons number kind rest =>
    obtain ⟨x,xs⟩ := x
    obtain ⟨fit,later⟩ := consNumbers.mp small
    obtain ⟨a,head⟩ := Kind.writeSome kind fit x
    obtain ⟨b,tail⟩ := Schema.encodeSome rest later xs
    exact ⟨a ++ b,by simp [encode,head,tail]⟩
end

theorem fieldShort (put : field wireType number data = some out) : out.length ≤ 5+data.length := by
  obtain ⟨key,hit,rfl⟩ := map_eq_some_iff.mp put
  have short : key.length ≤ 5 := by
    unfold getKey at hit
    dsimp only at hit
    split at hit
    · rename_i short
      rwa [← some.inj hit]
    · cases hit
  rw [length_append]
  omega

theorem concatShort (short : ∀ part ∈ parts, ∀ data, part = some data → data.length ≤ most)
    (put : Writer.concat parts = some out) : out.length ≤ parts.length*most := by
  induction parts generalizing out with
  | nil =>
    cases put
    simp
  | cons first rest ih =>
    obtain ⟨a,isA,put⟩ := bind_eq_some_iff.mp put
    obtain ⟨b,isB,put⟩ := bind_eq_some_iff.mp put
    cases put
    have one := short first (.head _) a isA
    have others := ih (fun part mem => short part (.tail _ mem)) isB
    rw [length_append,length_cons,add_mul]
    omega

theorem writeBytesShort (put : writeBytes number data = some out) : out.length ≤ 15+data.length := by
  have whole := fieldShort put
  have short := putUvarintShort (u64 data.length)
  rw [bytes,length_append] at whole
  omega

theorem newWindow (short : data.length < 9223372036854775808) : Window (Reader.new data) data [] :=
  ⟨by simp [Reader.new],by simp [Reader.new],Nat.zero_le _,short⟩

section
variable {fields : Schema} (small : ∀ m ∈ fields.numbers, m < 2 ^ 32) {least : Nat}
  (increasing : fields.Increasing least) {x : fields.Value} (valid : fields.Valid text x) {data : Bytes}
  (enc : fields.encode text x = some data) (short : data.length < 9223372036854775808)
include small increasing valid enc short

theorem Schema.decodeEncoded : fields.decode text data = .ok x := by
  have read := readEncoded fields small increasing valid enc (newWindow short) false
  simp only [decode,read,bind,Except.bind]

theorem Schema.decodeStrictEncoded : fields.decodeStrict text data = .ok x := by
  have read := readEncoded fields small increasing valid enc (newWindow short) true
  have whole : ((Reader.new data).skip data.length).hasUnreadBytes = false := by
    simp [Reader.hasUnreadBytes,Reader.skip,Reader.new]
  simp [decodeStrict,read,bind,Except.bind,whole]

end
end LiskEngine.Codec
