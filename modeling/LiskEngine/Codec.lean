import LiskEngine.Varint

/-! The codec: a writer of tagged fields, a single-pass reader that recognises a
field by the next key, and the code generated from a list of numbered fields. A
runtime panic is `none` in the writer and an error in the reader. The Unicode
normaliser is a parameter. -/
namespace LiskEngine.Codec
open Varint (putUvarint putVarint)

inductive CodecError where
  | invalidData
  | outOfRange
  | noTerminate
  | unexpectedFieldNumber
  | fieldNumberNotFound
  | unreadBytes
  | unnecessaryLeadingBytes
  | invalidByteSize (size remaining : Nat)
  | invalidUtf8
  | notNormalized
  | indexOutOfRange
  deriving DecidableEq, Repr

/-- Normal form C of strings, as the text package of the source provides it. -/
structure Normalizer where
  isNormal : String → Bool
  nfc : String → String
  fixed : ∀ s, isNormal s = true → nfc s = s

def Normalizer.plain : Normalizer := ⟨fun _ => true,id,fun _ _ => rfl⟩

def wireType0 : Nat := 0
def wireType2 : Nat := 2

/-- The key is written into five bytes; a longer one runs over their end. -/
def getKey (wireType fieldNumber : Nat) : Option Bytes :=
  let key := u64 (fieldNumber <<< 3 ||| wireType)
  if (putUvarint key).length ≤ 5 then some (putUvarint key) else none

namespace Writer

def bytes (data : Bytes) : Bytes := putUvarint (u64 data.length) ++ data

def bool (data : Bool) : Bytes := [if data then 1 else 0]

def field (wireType fieldNumber : Nat) (data : Bytes) : Option Bytes :=
  (getKey wireType fieldNumber).map (· ++ data)

def writeBytes (fieldNumber : Nat) (data : Bytes) : Option Bytes := field wireType2 fieldNumber (bytes data)

def concat : List (Option Bytes) → Option Bytes
  | [] => some []
  | first :: rest => do
    let a ← first
    let b ← concat rest
    some (a ++ b)

def writeBytesArray (fieldNumber : Nat) (data : List Bytes) : Option Bytes :=
  concat (data.map (writeBytes fieldNumber))

def utf8 (s : String) : Bytes := s.toByteArray.data.toList

def writeString (text : Normalizer) (fieldNumber : Nat) (data : String) : Option Bytes :=
  writeBytes fieldNumber (utf8 (text.nfc data))

def writeStrings (text : Normalizer) (fieldNumber : Nat) (data : List String) : Option Bytes :=
  concat (data.map (writeString text fieldNumber))

def writeBool (fieldNumber : Nat) (data : Bool) : Option Bytes := field wireType0 fieldNumber (bool data)

def writeUInt (fieldNumber : Nat) (data : Nat) : Option Bytes := field wireType0 fieldNumber (putUvarint data)

def writeUInt32 (fieldNumber : Nat) (data : Nat) : Option Bytes := writeUInt fieldNumber data

/-- The values of an array one after another, without keys; an empty array is not written. -/
def writePacked {α : Type} (write : α → Bytes) (fieldNumber : Nat) (data : List α) : Option Bytes :=
  if data.isEmpty then some [] else field wireType2 fieldNumber (bytes (data.map write).flatten)

def writeBools : Nat → List Bool → Option Bytes := writePacked bool

def writeUInts : Nat → List Nat → Option Bytes := writePacked putUvarint

def writeUInt32s : Nat → List Nat → Option Bytes := writePacked putUvarint

def writeInts : Nat → List Int → Option Bytes := writePacked putVarint

def writeInt (fieldNumber : Nat) (data : Int) : Option Bytes := field wireType0 fieldNumber (putVarint data)

def writeInt32 (fieldNumber : Nat) (data : Int) : Option Bytes := writeInt fieldNumber data

/-- Nothing is written for a nil pointer, which is `none`. -/
def writeEncodable (fieldNumber : Nat) : Option (Option Bytes) → Option Bytes
  | none => some []
  | some encoded => encoded.bind (writeBytes fieldNumber)

end Writer

def readKey (val : Int) : Except CodecError (Int × Int) :=
  let wireType := val % 8
  if wireType ≠ wireType0 ∧ wireType ≠ wireType2 then .error .invalidData else .ok (val / 8, wireType)

def varintShortestSize (data : Nat) : Nat :=
  if data < 2 ^ 7 then 1
  else if data < 2 ^ (7 * 2) then 2
  else if data < 2 ^ (7 * 3) then 3
  else if data < 2 ^ (7 * 4) then 4
  else if data < 2 ^ (7 * 5) then 5
  else if data < 2 ^ (7 * 6) then 6
  else if data < 2 ^ (7 * 7) then 7
  else if data < 2 ^ (7 * 8) then 8
  else if data < 2 ^ (7 * 9) then 9
  else 10

def readUintLoop (data : Bytes) (offset : Nat) : Nat → Nat → Nat → Nat → Except CodecError (Nat × Nat)
  | 0, _, _, _ => .error .noTerminate
  | n + 1, index, shift, result =>
    match data[index]? with
    | none => .error .invalidData
    | some byte =>
      let bit := byte.toNat
      let index := index + 1
      if index = offset + 10 ∧ bit > 1 then .error .outOfRange
      else
        let result := result ||| u64 ((bit &&& 0x7f) <<< shift)
        if bit &&& 0x80 = 0 then
          if varintShortestSize result ≠ index - offset then .error .unnecessaryLeadingBytes
          else .ok (result, index - offset)
        else readUintLoop data offset n index (shift + 7) result

/-- The shift runs over 0, 7, ..., 63. -/
def readUint (data : Bytes) (offset : Nat) : Except CodecError (Nat × Nat) := readUintLoop data offset 10 offset 0 0

@[irreducible] def int (n : Int) : Int := Int.bmod n 18446744073709551616

structure Reader where
  data : Bytes
  index : Nat
  stop : Int
  deriving DecidableEq, Repr

def strictError : CodecError → Bool
  | .fieldNumberNotFound => true
  | .unexpectedFieldNumber => true
  | _ => false

namespace Reader

def new (data : Bytes) : Reader := ⟨data,0,data.length⟩

def hasUnreadBytes (r : Reader) : Bool := (r.index : Int) ≠ r.stop

def peekKey (r : Reader) : Except CodecError (Int × Nat) := do
  let (result, size) ← readUint r.data r.index
  .ok (int result, size)

def check (r : Reader) (fieldNumber wireType : Nat) : Except CodecError Reader :=
  if r.stop ≤ r.index then .error .fieldNumberNotFound
  else do
    let (key, size) ← r.peekKey
    let (nextFieldNumber, nextWireType) ← readKey key
    if nextFieldNumber ≠ fieldNumber then .error .unexpectedFieldNumber
    else if nextWireType ≠ wireType then .error .invalidData
    else .ok {r with index := r.index + size}

def uint (r : Reader) : Except CodecError (Nat × Reader) := do
  let (result, size) ← readUint r.data r.index
  .ok (result, {r with index := r.index + size})

def sint (r : Reader) : Except CodecError (Int × Reader) := do
  let (res, r) ← r.uint
  if res % 2 = 0 then .ok ((res / 2 : Nat), r) else .ok (-(u64 (res + 1) / 2 : Nat), r)

def bytes (r : Reader) : Except CodecError (Bytes × Reader) := do
  let (size, r) ← r.uint
  let remaining := r.data.length - r.index
  if size > remaining then .error (.invalidByteSize size remaining)
  else .ok ((r.data.drop r.index).take size, {r with index := r.index + size})

def string (text : Normalizer) (r : Reader) : Except CodecError (String × Reader) := do
  let (result, r) ← r.bytes
  match String.fromUTF8? ⟨result.toArray⟩ with
  | none => .error .invalidUtf8
  | some s => if text.isNormal s then .ok (s, r) else .error .notNormalized

def bool (r : Reader) : Except CodecError (Bool × Reader) :=
  match r.data[r.index]? with
  | none => .error .indexOutOfRange
  | some target =>
    if target ≠ 0 ∧ target ≠ 1 then .error .invalidData
    else .ok (target ≠ 0, {r with index := r.index + 1})

section
variable {α : Type}

/-- A single field: an absent one is an error for a strict reader and `default` otherwise. -/
def single (r : Reader) (fieldNumber wireType : Nat) (strict : Bool) (default : α)
    (read : Reader → Except CodecError (α × Reader)) : Except CodecError (α × Reader) :=
  match r.check fieldNumber wireType with
  | .ok r => read r
  | .error e => if strictError e ∧ ¬ strict then .ok (default, r) else .error e

/-- A repeated field. Each round reads at least its key, so the length of the data bounds the rounds. -/
def repeatedLoop (fieldNumber : Nat) (read : Reader → Except CodecError (α × Reader)) :
    Nat → Reader → List α → Except CodecError (List α × Reader)
  | 0, r, result => .ok (result, r)
  | n + 1, r, result =>
    if (r.index : Int) < r.stop then
      match r.check fieldNumber wireType2 with
      | .error e => if strictError e then .ok (result, r) else .error e
      | .ok r => do
        let (val, r) ← read r
        repeatedLoop fieldNumber read n r (result ++ [val])
    else .ok (result, r)

def repeated (r : Reader) (fieldNumber : Nat) (read : Reader → Except CodecError (α × Reader)) :
    Except CodecError (List α × Reader) := repeatedLoop fieldNumber read (r.data.length + 1) r []

def packedLoop (read : Reader → Except CodecError (α × Reader)) (stop : Int) :
    Nat → Reader → List α → Except CodecError (List α × Reader)
  | 0, r, result => .ok (result, r)
  | n + 1, r, result =>
    if (r.index : Int) < stop then do
      let (val, r) ← read r
      packedLoop read stop n r (result ++ [val])
    else .ok (result, r)

def packed (r : Reader) (fieldNumber : Nat) (read : Reader → Except CodecError (α × Reader)) :
    Except CodecError (List α × Reader) :=
  match r.check fieldNumber wireType2 with
  | .error e => if strictError e then .ok ([], r) else .error e
  | .ok r => do
    let (arrayLength, r) ← r.uint
    packedLoop read (int (r.index + arrayLength)) (r.data.length + 1) r []

/-- A nested message reads from the same data up to its own end; its fields are never strict. -/
def nested (decode : Reader → Except CodecError (α × Reader)) (r : Reader) : Except CodecError (α × Reader) := do
  let (decodableSize, r) ← r.uint
  let (val, inner) ← decode {r with stop := int (r.index + decodableSize)}
  .ok (val, {r with index := inner.index})

def readDecodable (r : Reader) (fieldNumber : Nat) (strict : Bool) (creator : α)
    (decode : Reader → Except CodecError (α × Reader)) : Except CodecError (Option α × Reader) :=
  r.single fieldNumber wireType2 strict (some creator) (fun r => (nested decode r).map (fun v => (some v.1, v.2)))

def readDecodables (r : Reader) (fieldNumber : Nat) (decode : Reader → Except CodecError (α × Reader)) :
    Except CodecError (List (Option α) × Reader) :=
  r.repeated fieldNumber (fun r => (nested decode r).map (fun v => (some v.1, v.2)))

end

def readUInt (r : Reader) (fieldNumber : Nat) (strict : Bool) : Except CodecError (Nat × Reader) :=
  r.single fieldNumber wireType0 strict 0 uint

def readUInt32 (r : Reader) (fieldNumber : Nat) (strict : Bool) : Except CodecError (Nat × Reader) :=
  (r.readUInt fieldNumber strict).map (fun v => (u32 v.1, v.2))

def readInt (r : Reader) (fieldNumber : Nat) (strict : Bool) : Except CodecError (Int × Reader) :=
  r.single fieldNumber wireType0 strict 0 sint

def readInt32 (r : Reader) (fieldNumber : Nat) (strict : Bool) : Except CodecError (Int × Reader) :=
  (r.readInt fieldNumber strict).map (fun v => (Int.bmod v.1 4294967296, v.2))

def readBool (r : Reader) (fieldNumber : Nat) (strict : Bool) : Except CodecError (Bool × Reader) :=
  r.single fieldNumber wireType0 strict false bool

def readUInts (r : Reader) (fieldNumber : Nat) : Except CodecError (List Nat × Reader) := r.packed fieldNumber uint

def uint32 (r : Reader) : Except CodecError (Nat × Reader) := r.uint.map (fun v => (u32 v.1, v.2))

def readUInt32s (r : Reader) (fieldNumber : Nat) : Except CodecError (List Nat × Reader) := r.packed fieldNumber uint32

def readInts (r : Reader) (fieldNumber : Nat) : Except CodecError (List Int × Reader) := r.packed fieldNumber sint

def readBools (r : Reader) (fieldNumber : Nat) : Except CodecError (List Bool × Reader) := r.packed fieldNumber bool

def readBytes (r : Reader) (fieldNumber : Nat) (strict : Bool) : Except CodecError (Bytes × Reader) :=
  r.single fieldNumber wireType2 strict [] bytes

def readBytesArray (r : Reader) (fieldNumber : Nat) : Except CodecError (List Bytes × Reader) :=
  r.repeated fieldNumber bytes

def readString (text : Normalizer) (r : Reader) (fieldNumber : Nat) (strict : Bool) :
    Except CodecError (String × Reader) := r.single fieldNumber wireType2 strict "" (string text)

def readStrings (text : Normalizer) (r : Reader) (fieldNumber : Nat) : Except CodecError (List String × Reader) :=
  r.repeated fieldNumber (string text)

end Reader

/-- The values that a packed array can hold. The writer packs 32-bit signed numbers
too, but no function of the reader reads them. -/
inductive Packed where
  | bool
  | uint32
  | uint64
  | int64
  deriving DecidableEq, Repr

namespace Packed

abbrev Value : Packed → Type
  | bool => Bool
  | uint32 => Nat
  | uint64 => Nat
  | int64 => Int

def write : (item : Packed) → item.Value → Bytes
  | bool, x => Writer.bool x
  | uint32, x => putUvarint x
  | uint64, x => putUvarint x
  | int64, x => putVarint x

def read : (item : Packed) → Reader → Except CodecError (item.Value × Reader)
  | bool, r => r.bool
  | uint32, r => r.uint32
  | uint64, r => r.uint
  | int64, r => r.sint

def writeArray : (item : Packed) → Nat → List item.Value → Option Bytes
  | bool => Writer.writeBools
  | uint32 => Writer.writeUInt32s
  | uint64 => Writer.writeUInts
  | int64 => Writer.writeInts

def readArray : (item : Packed) → Reader → Nat → Except CodecError (List item.Value × Reader)
  | bool => Reader.readBools
  | uint32 => Reader.readUInt32s
  | uint64 => Reader.readUInts
  | int64 => Reader.readInts

def Valid : (item : Packed) → item.Value → Prop
  | bool, _ => True
  | uint32, x => x < 4294967296
  | uint64, x => x < 18446744073709551616
  | int64, x => -9223372036854775808 < x ∧ x < 9223372036854775808

theorem writeArrayPacked (item : Packed) : item.writeArray = Writer.writePacked item.write := by cases item <;> rfl

theorem readArrayPacked (item : Packed) : item.readArray = fun r number => r.packed number item.read := by cases item <;> rfl

end Packed

mutual
/-- The field types the generator knows; a message type is a list of numbered fields. -/
inductive Kind where
  | bool
  | uint32
  | uint64
  | int32
  | int64
  | bytes
  | string
  | message (fields : Schema)
  | bytesArray
  | stringArray
  | packedArray (item : Packed)
  | messageArray (fields : Schema)

inductive Schema where
  | nil
  | cons (number : Nat) (kind : Kind) (rest : Schema)
end

mutual
def Kind.Value : Kind → Type
  | .bool => Bool
  | .uint32 => Nat
  | .uint64 => Nat
  | .int32 => Int
  | .int64 => Int
  | .bytes => Bytes
  | .string => String
  | .message fields => Option fields.Value
  | .bytesArray => List Bytes
  | .stringArray => List String
  | .packedArray item => List item.Value
  | .messageArray fields => List (Option fields.Value)

def Schema.Value : Schema → Type
  | .nil => Unit
  | .cons _ kind rest => kind.Value × rest.Value
end

def Kind.zero : (kind : Kind) → kind.Value
  | .bool => false
  | .uint32 => (0 : Nat)
  | .uint64 => (0 : Nat)
  | .int32 => (0 : Int)
  | .int64 => (0 : Int)
  | .bytes => ([] : Bytes)
  | .string => ""
  | .message _ => none
  | .bytesArray => ([] : List Bytes)
  | .stringArray => ([] : List String)
  | .packedArray _ => []
  | .messageArray _ => []

def Schema.zero : (fields : Schema) → fields.Value
  | .nil => ()
  | .cons _ kind rest => (kind.zero, rest.zero)

section
variable (text : Normalizer)

mutual
def Kind.write : (kind : Kind) → Nat → kind.Value → Option Bytes
  | .bool, number, x => Writer.writeBool number x
  | .uint32, number, x => Writer.writeUInt32 number x
  | .uint64, number, x => Writer.writeUInt number x
  | .int32, number, x => Writer.writeInt32 number x
  | .int64, number, x => Writer.writeInt number x
  | .bytes, number, x => Writer.writeBytes number x
  | .string, number, x => Writer.writeString text number x
  | .message fields, number, x => Writer.writeEncodable number (x.map (fun v => fields.encode v))
  | .bytesArray, number, x => Writer.writeBytesArray number x
  | .stringArray, number, x => Writer.writeStrings text number x
  | .packedArray item, number, x => item.writeArray number x
  | .messageArray fields, number, x =>
    Writer.concat (x.map (fun e => Writer.writeEncodable number (e.map (fun v => fields.encode v))))

def Schema.encode : (fields : Schema) → fields.Value → Option Bytes
  | .nil, _ => some []
  | .cons number kind rest, (x, xs) => do
    let first ← kind.write number x
    let tail ← rest.encode xs
    some (first ++ tail)
end

mutual
def Kind.read : (kind : Kind) → Nat → Bool → Reader → Except CodecError (kind.Value × Reader)
  | .bool, number, strict, r => r.readBool number strict
  | .uint32, number, strict, r => r.readUInt32 number strict
  | .uint64, number, strict, r => r.readUInt number strict
  | .int32, number, strict, r => r.readInt32 number strict
  | .int64, number, strict, r => r.readInt number strict
  | .bytes, number, strict, r => r.readBytes number strict
  | .string, number, strict, r => r.readString text number strict
  | .message fields, number, strict, r =>
    r.readDecodable number strict fields.zero (fun r => fields.decodeFromReader false r)
  | .bytesArray, number, _, r => r.readBytesArray number
  | .stringArray, number, _, r => r.readStrings text number
  | .packedArray item, number, _, r => item.readArray r number
  | .messageArray fields, number, _, r => r.readDecodables number (fun r => fields.decodeFromReader false r)

def Schema.decodeFromReader : (fields : Schema) → Bool → Reader → Except CodecError (fields.Value × Reader)
  | .nil, _, r => .ok ((), r)
  | .cons number kind rest, strict, r => do
    let (x, r) ← kind.read number strict r
    let (xs, r) ← rest.decodeFromReader strict r
    .ok ((x, xs), r)
end

def Schema.decode (fields : Schema) (data : Bytes) : Except CodecError fields.Value := do
  let (x, _) ← fields.decodeFromReader text false (Reader.new data)
  .ok x

def Schema.decodeStrict (fields : Schema) (data : Bytes) : Except CodecError fields.Value := do
  let (x, r) ← fields.decodeFromReader text true (Reader.new data)
  if r.hasUnreadBytes then .error .unreadBytes else .ok x

mutual
/-- Values the source's types hold, with every pointer set, every string normal and
no least 64-bit integer. -/
def Kind.Valid : (kind : Kind) → kind.Value → Prop
  | .bool, _ => True
  | .uint32, x => (show Nat from x) < 4294967296
  | .uint64, x => (show Nat from x) < 18446744073709551616
  | .int32, x => -2147483648 ≤ (show Int from x) ∧ (show Int from x) < 2147483648
  | .int64, x => -9223372036854775808 < (show Int from x) ∧ (show Int from x) < 9223372036854775808
  | .bytes, _ => True
  | .string, x => text.isNormal x = true
  | .message fields, x => ∃ v, x = some v ∧ fields.Valid v
  | .bytesArray, _ => True
  | .stringArray, x => ∀ s ∈ (show List String from x), text.isNormal s = true
  | .packedArray item, x => ∀ v ∈ (show List item.Value from x), item.Valid v
  | .messageArray fields, x => ∀ e ∈ (show List (Option fields.Value) from x), ∃ v, e = some v ∧ fields.Valid v

def Schema.Valid : (fields : Schema) → fields.Value → Prop
  | .nil, _ => True
  | .cons _ kind rest, (x, xs) => kind.Valid x ∧ rest.Valid xs
end

end

mutual
def Kind.Increasing : Kind → Prop
  | .message fields => fields.Increasing 0
  | .messageArray fields => fields.Increasing 0
  | _ => True

def Schema.Increasing : Schema → Nat → Prop
  | .nil, _ => True
  | .cons number kind rest, least => least < number ∧ kind.Increasing ∧ rest.Increasing number
end

mutual
def Kind.numbers : Kind → List Nat
  | .message fields => fields.numbers
  | .messageArray fields => fields.numbers
  | _ => []

def Schema.numbers : Schema → List Nat
  | .nil => []
  | .cons number kind rest => number :: (kind.numbers ++ rest.numbers)
end

end LiskEngine.Codec
