import LiskEngine.CodecReader

/-! A strict decoding of a flat message accepts only what its encoding writes. -/
namespace LiskEngine.Codec
open Varint List Schema Writer

theorem wireType0Allowed : wireType0 = 0 ∨ wireType0 = 2 := Or.inl rfl

theorem wireType2Allowed : wireType2 = 0 ∨ wireType2 = 2 := Or.inr rfl

theorem fieldSmall (wire : wireType = 0 ∨ wireType = 2) (small : fieldNumber < 2^32) (data : Bytes) :
    field wireType fieldNumber data = some (putUvarint (8*fieldNumber+wireType) ++ data) := by
  rw [field,getKeySmall wire small]
  rfl

theorem readsField {next} (wire : wireType = 0 ∨ wireType = 2) (small : fieldNumber < 2^32)
    (checked : r.check fieldNumber wireType = .ok middle) (content : Reads middle data next) :
    ∃ put, field wireType fieldNumber data = some put ∧ Reads r put next :=
  ⟨_,fieldSmall wire small data,readsAppend.mpr ⟨middle,((checkIff wire small).mp checked).2,content⟩⟩

section
variable {α : Type} {read : Reader → Except CodecError (α × Reader)} {fieldNumber wireType : Nat} {r next : Reader}

theorem singleStrict {x default} (ok : r.single fieldNumber wireType true default read = .ok (x,next)) :
    ∃ middle, r.check fieldNumber wireType = .ok middle ∧ read middle = .ok (x,next) := by
  unfold Reader.single at ok
  split at ok
  · rename_i middle checked
    exact ⟨middle,checked,ok⟩
  · simp at ok

theorem concatCons (head : first = some a) (tail : Writer.concat rest = some b) : Writer.concat (first::rest) = some (a ++ b) := by
  simp [Writer.concat,head,tail]

theorem repeatedLoopCanonical {body : α → Bytes} (small : fieldNumber < 2^32)
    (reads : ∀ m x m', read m = .ok (x,m') → Reads m (body x) m') (fuel : Nat) {res vs}
    (ok : Reader.repeatedLoop fieldNumber read fuel r res = .ok (vs,next)) : ∃ hit put, vs = res ++ hit ∧
      Writer.concat (hit.map (fun x => Writer.field wireType2 fieldNumber (body x))) = some put ∧ Reads r put next := by
  induction fuel generalizing r res with
  | zero =>
    obtain ⟨rfl,rfl⟩ := Prod.mk.inj (Except.ok.inj ok)
    exact ⟨[],[],by simp,rfl,readsNil _⟩
  | succ fuel ih =>
    have finished : Reads r [] r := readsNil r
    unfold Reader.repeatedLoop at ok
    split at ok
    · split at ok
      · split at ok
        · obtain ⟨rfl,rfl⟩ := Prod.mk.inj (Except.ok.inj ok)
          exact ⟨[],[],by simp,rfl,finished⟩
        · cases ok
      · rename_i middle checked
        obtain ⟨⟨x,after⟩,value,rest⟩ := bindOk ok
        obtain ⟨hit,tail,rfl,put,moved⟩ := ih rest
        obtain ⟨first,field,front⟩ := readsField wireType2Allowed small checked (reads _ _ _ value)
        exact ⟨x::hit,first ++ tail,by simp,concatCons field put,readsAppend.mpr ⟨after,front,moved⟩⟩
    · obtain ⟨rfl,rfl⟩ := Prod.mk.inj (Except.ok.inj ok)
      exact ⟨[],[],by simp,rfl,finished⟩

theorem repeatedCanonical {body : α → Bytes} {vs} (small : fieldNumber < 2^32)
    (reads : ∀ m x m', read m = .ok (x,m') → Reads m (body x) m') (ok : r.repeated fieldNumber read = .ok (vs,next)) :
    ∃ put, Writer.concat (vs.map (fun x => Writer.field wireType2 fieldNumber (body x))) = some put ∧ Reads r put next := by
  obtain ⟨hit,put,rfl,rest⟩ := repeatedLoopCanonical small reads _ ok
  exact ⟨put,by simpa using rest⟩

end

/-- The kinds whose every accepted form is the written one: no shortened integer,
no packed list, no nested message. -/
def Kind.canonical : Kind → Bool
  | .bool => true
  | .uint64 => true
  | .bytes => true
  | .string => true
  | .bytesArray => true
  | .stringArray => true
  | _ => false

def Schema.canonical : Schema → Bool
  | .nil => true
  | .cons number kind rest => number < 2 ^ 32 && kind.canonical && rest.canonical

variable {text : Normalizer}

theorem stringReads (ok : m.string text = .ok (s,m')) : Reads m (bytes (utf8 (text.nfc s))) m' := by
  obtain ⟨normal,_,reads⟩ := stringIff.mp ok
  rwa [text.fixed s normal]

theorem Kind.readCanonical {kind : Kind} {number} (canonical : kind.canonical = true) (small : number < 2^32) {r next x}
    (ok : kind.read text number true r = .ok (x,next)) : ∃ put, kind.write text number x = some put ∧ Reads r put next := by
  cases kind with
  | bool =>
    obtain ⟨middle,checked,value⟩ := singleStrict ok
    exact readsField wireType0Allowed small checked (boolIff.mp value)
  | uint64 =>
    obtain ⟨middle,checked,value⟩ := singleStrict ok
    exact readsField wireType0Allowed small checked (uintIff.mp value).2
  | bytes =>
    obtain ⟨middle,checked,value⟩ := singleStrict ok
    exact readsField wireType2Allowed small checked (bytesIff.mp value).2
  | string =>
    obtain ⟨middle,checked,value⟩ := singleStrict ok
    exact readsField wireType2Allowed small checked (stringReads value)
  | bytesArray => exact repeatedCanonical small (fun m d m' value => (bytesIff.mp value).2) ok
  | stringArray => exact repeatedCanonical small (fun m s m' value => stringReads value) ok
  | uint32 | int32 | int64 | packedArray item | message fields | messageArray fields => simp [Kind.canonical] at canonical

theorem Schema.decodeCanonical {fields : Schema} (canonical : fields.canonical = true) {r next x}
    (ok : fields.decodeFromReader text true r = .ok (x,next)) : ∃ put, fields.encode text x = some put ∧ Reads r put next := by
  match fields with
  | .nil =>
    obtain ⟨rfl,rfl⟩ := Prod.mk.inj (Except.ok.inj ok)
    exact ⟨[],by simp [Schema.encode],readsNil r⟩
  | .cons number kind rest =>
    simp only [Schema.canonical,Bool.and_eq_true,decide_eq_true_eq] at canonical
    obtain ⟨⟨first,middle⟩,head,tail⟩ := bindOk ok
    obtain ⟨⟨others,last⟩,dec,same⟩ := bindOk tail
    obtain ⟨rfl,rfl⟩ := Prod.mk.inj (Except.ok.inj same)
    obtain ⟨a,writtenHead,readHead⟩ := Kind.readCanonical canonical.1.2 canonical.1.1 head
    obtain ⟨b,writtenTail,readTail⟩ := Schema.decodeCanonical canonical.2 dec
    exact ⟨a ++ b,by simp [Schema.encode,writtenHead,writtenTail],readsAppend.mpr ⟨middle,readHead,readTail⟩⟩

theorem Schema.decodeStrictCanonical {fields : Schema} (canonical : fields.canonical = true) {data x}
    (ok : fields.decodeStrict text data = .ok x) : fields.encode text x = some data := by
  obtain ⟨⟨value,last⟩,dec,rest⟩ := bindOk ok
  simp only at rest
  split at rest
  · cases rest
  rename_i whole
  cases rest
  obtain ⟨put,enc,⟨here,rfl⟩⟩ := decodeCanonical canonical dec
  simp only [Reader.hasUnreadBytes,Reader.new,zero_add,decide_eq_true_eq,not_not] at whole
  rw [enc,List.IsPrefix.eq_of_length here (by simpa [Reader.new] using whole)]
  rfl

theorem mapOk {ε α β : Type} {f} {x : Except ε α} {y : β} (ok : x.map f = .ok y) : ∃ a, x = .ok a ∧ f a = y := by
  cases x with
  | error e => cases ok
  | ok a =>
    cases ok
    exact ⟨a,rfl,rfl⟩

section
variable {α : Type} {read : Reader → Except CodecError (α × Reader)} {P : α → Prop} {fieldNumber : Nat} {r next : Reader}
  (reads : ∀ m x m', read m = .ok (x, m') → P x)
include reads

theorem singleAll {wireType strict x default} (absent : P default)
    (ok : r.single fieldNumber wireType strict default read = .ok (x,next)) : P x := by
  unfold Reader.single at ok
  split at ok
  · exact reads _ _ _ ok
  split at ok
  · cases ok
    exact absent
  · cases ok

theorem repeatedLoopAll (fuel : Nat) (before : ∀ x ∈ result, P x)
    (ok : Reader.repeatedLoop fieldNumber read fuel r result = .ok (values,next)) : ∀ x ∈ values, P x := by
  induction fuel generalizing r result with
  | zero =>
    cases ok
    exact before
  | succ fuel ih =>
    unfold Reader.repeatedLoop at ok
    split at ok
    · split at ok
      · split at ok
        · cases ok
          exact before
        · cases ok
      · obtain ⟨⟨x,after⟩,value,rest⟩ := bindOk ok
        exact ih (forall_mem_append.mpr ⟨before,forall_mem_singleton.mpr (reads _ _ _ value)⟩) rest
    · cases ok
      exact before

theorem packedLoopAll (fuel : Nat) (before : ∀ x ∈ result, P x)
    (ok : Reader.packedLoop read stop fuel r result = .ok (values,next)) : ∀ x ∈ values, P x := by
  induction fuel generalizing r result with
  | zero =>
    cases ok
    exact before
  | succ fuel ih =>
    unfold Reader.packedLoop at ok
    split at ok
    · obtain ⟨⟨x,after⟩,value,rest⟩ := bindOk ok
      exact ih (forall_mem_append.mpr ⟨before,forall_mem_singleton.mpr (reads _ _ _ value)⟩) rest
    · cases ok
      exact before

theorem packedAll (ok : r.packed fieldNumber read = .ok (values,next)) : ∀ x ∈ values, P x := by
  unfold Reader.packed at ok
  split at ok
  · split at ok
    · cases ok
      simp
    · cases ok
  · obtain ⟨⟨len,after⟩,_,rest⟩ := bindOk ok
    exact packedLoopAll reads _ (by simp) rest

theorem nestedAll {m m'} {x : Option α} (ok : (Reader.nested read m).map (fun v => (some v.1,v.2)) = .ok (x,m')) :
    ∃ v, x = some v ∧ P v := by
  obtain ⟨v,inner,same⟩ := mapOk ok
  cases same
  obtain ⟨⟨size,after⟩,_,rest⟩ := bindOk inner
  obtain ⟨⟨value,last⟩,dec,same⟩ := bindOk rest
  cases same
  exact ⟨value,rfl,reads _ _ _ dec⟩

end

theorem sintRange {m m' : Reader} {x} (ok : m.sint = .ok (x,m')) : -9223372036854775808 < x ∧ x < 9223372036854775808 := by
  obtain ⟨⟨res,after⟩,value,ok⟩ := bindOk ok
  have small := (uintIff.mp value).1
  simp only at ok
  split at ok
  · cases ok
    omega
  · cases ok
    unfold u64
    omega

theorem Packed.readValid (item : Packed) {m m'} {v : item.Value} (ok : item.read m = .ok (v,m')) : item.Valid v := by
  cases item with
  | bool => trivial
  | uint32 =>
    obtain ⟨⟨n,next⟩,_,same⟩ := mapOk ok
    cases same
    exact Nat.mod_lt n (by decide)
  | uint64 => exact (uintIff.mp ok).1
  | int64 => exact sintRange ok

section
variable (text)

mutual
def Kind.Whole : Kind → Prop
  | .string => text.isNormal "" = true
  | .message fields => fields.Whole ∧ fields.Valid text fields.zero
  | .messageArray fields => fields.Whole
  | _ => True

def Schema.Whole : Schema → Prop
  | .nil => True
  | .cons _ kind rest => kind.Whole ∧ rest.Whole
end

end

mutual
theorem Kind.readValid {kind : Kind} (whole : kind.Whole text) {number : Nat} {strict : Bool} {r next x}
    (ok : kind.read text number strict r = .ok (x,next)) : kind.Valid text x := by
  match kind with
  | .bool | .bytes | .bytesArray => trivial
  | .uint32 =>
    obtain ⟨⟨n,m⟩,_,same⟩ := mapOk ok
    cases same
    exact Nat.mod_lt n (by decide)
  | .uint64 => exact singleAll (fun _ _ _ value => (uintIff.mp value).1) (by decide) ok
  | .int32 =>
    obtain ⟨⟨n,m⟩,_,same⟩ := mapOk ok
    cases same
    exact ⟨Int.le_bmod (by decide),Int.bmod_lt (by decide)⟩
  | .int64 => exact singleAll (fun _ _ _ => sintRange) (by decide) ok
  | .string => exact singleAll (fun _ _ _ value => (stringIff.mp value).1) whole ok
  | .stringArray => exact repeatedLoopAll (fun _ _ _ value => (stringIff.mp value).1) _ (by simp) ok
  | .packedArray item =>
    simp only [Kind.read,item.readArrayPacked] at ok
    exact packedAll (fun _ _ _ => item.readValid) ok
  | .message fields =>
    exact singleAll (fun _ _ _ => nestedAll (fun _ _ _ => Schema.decodeValid whole.1)) ⟨_,rfl,whole.2⟩ ok
  | .messageArray fields =>
    exact repeatedLoopAll (fun _ _ _ => nestedAll (fun _ _ _ => Schema.decodeValid whole)) _ (by simp) ok

theorem Schema.decodeValid {fields : Schema} (whole : fields.Whole text) {strict r next x}
    (ok : fields.decodeFromReader text strict r = .ok (x,next)) : fields.Valid text x := by
  match fields with
  | .nil => trivial
  | .cons number kind rest =>
    obtain ⟨⟨first,middle⟩,head,tail⟩ := bindOk ok
    obtain ⟨⟨others,last⟩,dec,same⟩ := bindOk tail
    cases same
    exact ⟨Kind.readValid whole.1 head,Schema.decodeValid whole.2 dec⟩
end

end LiskEngine.Codec
