import LiskEngine.Codec
import Mathlib.Data.Nat.Bitwise
import Mathlib.Tactic.Ring

/-! What one read of the codec's reader consumes: a number is accepted exactly
when the data continues with its shortest form. -/
namespace LiskEngine.Codec
open Varint List Option Writer

def firstBelow (limit : Nat → Nat) (x : Nat) : Nat → Nat → Nat
  | 0, least => least
  | more + 1, least => if x < limit least then least else firstBelow limit x more (least + 1)

theorem firstBelowSpec (limit : Nat → Nat) (x more least : Nat) : let size := firstBelow limit x more least
    least ≤ size ∧ size ≤ least+more ∧ (size < least+more → x < limit size) ∧ (least < size → limit (size-1) ≤ x) := by
  induction more generalizing least with
  | zero => simp [firstBelow]
  | succ more ih =>
    simp only [firstBelow]
    split
    · rename_i below
      exact ⟨le_rfl,by omega,fun _ => below,fun above => absurd above (lt_irrefl least)⟩
    rename_i reached
    obtain ⟨lower,upper,fit,beyond⟩ := ih (least+1)
    refine ⟨by omega,by omega,fun smaller => fit (by omega),fun _ => ?_⟩
    rcases lt_or_eq_of_le lower with later | first
    · exact beyond later
    · rw [← first]
      exact not_lt.mp reached

theorem varintShortestSizeSpec (x : Nat) : 1 ≤ varintShortestSize x ∧ varintShortestSize x ≤ 10 ∧
    (varintShortestSize x < 10 → x < 2^(7*varintShortestSize x)) ∧ (1 < varintShortestSize x → 2^(7*(varintShortestSize x-1)) ≤ x) :=
  firstBelowSpec (fun size => 2^(7*size)) x 9 1

theorem varintShortestSizeOf (short : s ≤ 10) (above : x < 2^(7*s)) (below : s = 1 ∨ 1 < s ∧ 2^(7*(s-1)) ≤ x) :
    varintShortestSize x = s := by
  obtain ⟨least,most,upper,lower⟩ := varintShortestSizeSpec x
  generalize varintShortestSize x = t at least most upper lower ⊢
  rcases lt_trichotomy t s with smaller | same | more
  · have grows : 2^(7*t) ≤ 2^(7*(s-1)) := Nat.pow_le_pow_right (by decide) (by omega)
    omega
  · exact same
  · have grows : 2^(7*s) ≤ 2^(7*(t-1)) := Nat.pow_le_pow_right (by decide) (by omega)
    omega

theorem orShifted (small : res < 2^(7*k)) (fits : digit*2^(7*k) < 2^64) : res ||| u64 (digit <<< (7*k)) = res+2^(7*k)*digit := by
  rw [Nat.shiftLeft_eq,u64Small (by simpa using fits),Nat.or_comm,Nat.mul_comm,← Nat.two_pow_add_eq_or_of_lt small,add_comm]

theorem lowDigit (b : Nat) : b &&& 0x7f = b % 128 := Nat.and_two_pow_sub_one_eq_mod b 7

theorem continues (b : UInt8) : b.toNat &&& 0x80 = 0 ↔ b.toNat < 128 := by
  have range := b.toNat_lt
  have top : b.toNat &&& 0x80 = (b.toNat.testBit 7).toNat*2^7 := Nat.and_two_pow b.toNat 7
  rw [top,Nat.testBit_eq_decide_div_mod_eq]
  by_cases set : b.toNat/2^7 % 2 = 1
  · simp only [set,decide_true,Bool.toNat_true]
    omega
  · simp only [set,decide_false,Bool.toNat_false]
    omega

theorem widen (k : Nat) : 2^(7*(k+1)) = 2^(7*k)*128 := by rw [show 7*(k+1) = 7*k+7 by omega,Nat.pow_add]

theorem digitFits (early : k < 9) (digits : digit < 128) : 2^(7*k)*digit < 2^64 := by
  have grows : 2^(7*k) ≤ 2^56 := Nat.pow_le_pow_right (by decide) (by omega)
  calc 2^(7*k)*digit ≤ 2^56*127 := Nat.mul_le_mul grows (by omega)
    _ < 2^64 := by norm_num

theorem digitAdded (small : res < 2^(7*k)) (digits : digit < 128) : res+2^(7*k)*digit < 2^(7*(k+1)) := by
  have full : 2^(7*k)*(digit+1) ≤ 2^(7*k)*128 := Nat.mul_le_mul_left _ (by omega)
  have split : 2^(7*k)*(digit+1) = 2^(7*k)*digit+2^(7*k) := by ring
  rw [widen]
  omega

theorem shortestLast (small : res < 2^(7*k)) (digits : digit < 128) (short : k ≤ 9) :
    varintShortestSize (res+2^(7*k)*digit) = k+1 ↔ k = 0 ∨ 0 < digit := by
  constructor
  · intro size
    by_contra neither
    have zero : digit = 0 := by omega
    obtain ⟨_,_,_,lower⟩ := varintShortestSizeSpec (res+2^(7 * k) * digit)
    rw [size,zero] at lower
    have := lower (by omega)
    simp only [Nat.add_sub_cancel] at this
    omega
  · intro needed
    refine varintShortestSizeOf (by omega) (digitAdded small digits) ?_
    rcases needed with zero | pos
    · exact .inl (by omega)
    rcases Nat.eq_zero_or_pos k with zero | positive
    · exact .inl (by omega)
    · have grows : 2^(7*k)*1 ≤ 2^(7*k)*digit := Nat.mul_le_mul_left _ pos
      exact .inr ⟨by omega,by simp only [Nat.add_sub_cancel]; omega⟩

theorem consAtOffset {data rest : Bytes} {a i} : a::rest <+: data.drop i ↔ data[i]? = some a ∧ rest <+: data.drop (i+1) := by
  have head : data[i]? = (data.drop i)[0]? := by rw [getElem?_drop,add_zero]
  rw [← drop_drop,head]
  cases data.drop i with
  | nil => simp
  | cons b tail => simp [cons_prefix_cons,eq_comm]

section
variable {data : Bytes} {offset n k res : Nat} {byte : UInt8}

theorem readUintLoopLast (hit : data[offset+k]? = some byte) (last : byte.toNat < 128)
    (fits : 2^(7*k)*byte.toNat < 2^64) (short : k ≤ 9) (small : res < 2^(7*k)) : readUintLoop data offset (n+1) (offset+k) (7*k) res =
      if k = 0 ∨ 0 < byte.toNat then .ok (res+2^(7*k)*byte.toNat,k+1) else .error .unnecessaryLeadingBytes := by
  have inRange : ¬ (offset+k+1 = offset+10 ∧ byte.toNat > 1) := by
    rintro ⟨tenth,high⟩
    obtain rfl : k = 9 := by omega
    norm_num at fits
    omega
  unfold readUintLoop
  simp only [hit,if_neg inRange,(continues byte).mpr last,if_true,lowDigit,Nat.mod_eq_of_lt last]
  rw [orShifted small (by rw [mul_comm]; exact fits),show offset+k+1-offset = k+1 by omega]
  by_cases needed : k = 0 ∨ 0 < byte.toNat
  · rw [if_pos needed,if_neg (not_not.mpr ((shortestLast small last short).mpr needed))]
  · rw [if_neg needed,if_pos (fun size => needed ((shortestLast small last short).mp size))]

theorem readUintLoopMore (hit : data[offset+k]? = some byte) (more : 128 ≤ byte.toNat) (early : k < 9)
    (small : res < 2^(7*k)) : readUintLoop data offset (n+1) (offset+k) (7*k) res =
      readUintLoop data offset n (offset+(k+1)) (7*(k+1)) (res+2^(7*k)*(byte.toNat % 128)) := by
  have inRange : ¬ (offset+k+1 = offset+10 ∧ byte.toNat > 1) := fun ⟨tenth,_⟩ => by omega
  have open' : ¬ byte.toNat &&& 0x80 = 0 := fun closed => by have := (continues byte).mp closed; omega
  have fits : byte.toNat % 128*2^(7*k) < 2^64 := by
    rw [mul_comm]
    exact digitFits early (by omega)
  conv => lhs; unfold readUintLoop
  simp only [hit,if_neg inRange,if_neg open',lowDigit]
  rw [orShifted small fits]
  rfl

end

theorem byteToNat (small : n < 256) : (UInt8.ofNat n).toNat = n := UInt8.toNat_ofNat_of_lt' small

theorem putUvarintLoopHead (put : putUvarintLoop (n+1) y = byte::rest) : (byte.toNat < 128 ∧ y = byte.toNat ∧ rest = []) ∨
      (128 ≤ byte.toNat ∧ y % 128 = byte.toNat % 128 ∧ 128 ≤ y ∧ rest = putUvarintLoop n (y/128)) := by
  unfold putUvarintLoop at put
  split at put
  · rename_i last
    obtain ⟨rfl,rfl⟩ := cons.inj put
    have same : (UInt8.ofNat y).toNat = y := byteToNat (by omega)
    exact .inl ⟨by omega,same.symm,rfl⟩
  · rename_i more
    obtain ⟨rfl,rfl⟩ := cons.inj put
    have same : (UInt8.ofNat (y % 128+128)).toNat = y % 128+128 := byteToNat (by omega)
    exact .inr ⟨by omega,by omega,by omega,rfl⟩

theorem readUintLoopNone (absent : data[offset+k]? = none) :
    readUintLoop data offset (n+1) (offset+k) (7*k) res = .error .invalidData := by
  unfold readUintLoop
  simp only [absent]

theorem notAtNone {data put : Bytes} {i} (absent : data[i]? = none) (filled : 0 < put.length) : ¬ put <+: data.drop i := by
  cases put with
  | nil => simp at filled
  | cons a rest => simp [consAtOffset,absent]

def RestOf (data : Bytes) (offset n k result x size : Nat) : Prop :=
  ∃ y, x = result + 2 ^ (7 * k) * y ∧ 2 ^ (7 * k) * y < 2 ^ 64 ∧ (k = 0 ∨ 0 < y) ∧
    size = k + (putUvarintLoop n y).length ∧ putUvarintLoop n y <+: data.drop (offset + k)

section
variable {data : Bytes} {offset n k res x size : Nat} {byte : UInt8}

theorem notRestOf (absent : data[offset+k]? = none) : ¬RestOf data offset n k res x size :=
  fun ⟨y,_,_,_,_,put⟩ => absurd put (notAtNone absent (putUvarintLoopPos n y))

theorem readTenth (hit : data[offset+9]? = some byte) (small : res < 2^(7*9)) :
    readUintLoop data offset (0+1) (offset+9) (7*9) res = .ok (x,size) ↔ RestOf data offset 0 9 res x size := by
  have only : ∀ y, 2^(7*9)*y < 2^64 → putUvarintLoop 0 y <+: data.drop (offset+9) → y = byte.toNat := by
    intro y fits put
    have same : byte = UInt8.ofNat y := by
      have := (consAtOffset.mp put).1
      rw [hit] at this
      exact some.inj this
    norm_num at fits
    rw [same,byteToNat (by omega)]
  by_cases high : byte.toNat > 1
  · have error : readUintLoop data offset (0+1) (offset+9) (7*9) res = .error .outOfRange := by
      unfold readUintLoop
      simp [hit,high]
    rw [error]
    refine ⟨nofun,fun ⟨y,_,fits,_,_,put⟩ => ?_⟩
    have := only y fits put
    norm_num at fits
    omega
  · rw [readUintLoopLast hit (by omega) (by norm_num; omega) (by omega) small]
    constructor
    · intro ok
      split at ok
      · rename_i needed
        obtain ⟨rfl,rfl⟩ := Prod.mk.inj (Except.ok.inj ok)
        refine ⟨byte.toNat,rfl,by norm_num; omega,needed,rfl,?_⟩
        exact consAtOffset.mpr ⟨by rw [hit,UInt8.ofNat_toNat], nil_prefix⟩
      · cases ok
    · rintro ⟨y,rfl,fits,needed,rfl,put⟩
      rw [only y fits put] at needed ⊢
      rw [if_pos needed]
      rfl

theorem firstByte (hit : data[offset+k]? = some byte) {y : Nat} (put : putUvarintLoop (n+1) y <+: data.drop (offset+k)) :
    ∃ rest, putUvarintLoop (n+1) y = byte::rest ∧ rest <+: data.drop (offset+(k+1)) := by
  cases bytes : putUvarintLoop (n+1) y with
  | nil => have := putUvarintLoopPos (n+1) y; rw [bytes] at this; simp at this
  | cons a rest =>
    rw [bytes] at put
    obtain ⟨head,tail⟩ := consAtOffset.mp put
    rw [hit] at head
    exact ⟨rest,by rw [some.inj head],tail⟩

theorem readLast (hit : data[offset+k]? = some byte) (last : byte.toNat < 128) (early : k < 9) (small : res < 2^(7*k)) :
    readUintLoop data offset (n+1+1) (offset+k) (7*k) res = .ok (x,size) ↔ RestOf data offset (n+1) k res x size := by
  rw [readUintLoopLast hit last (digitFits early last) (by omega) small]
  constructor
  · intro ok
    split at ok
    · rename_i needed
      obtain ⟨rfl,rfl⟩ := Prod.mk.inj (Except.ok.inj ok)
      have single : putUvarintLoop (n+1) byte.toNat = [byte] := by
        unfold putUvarintLoop
        rw [if_pos last,UInt8.ofNat_toNat]
      refine ⟨byte.toNat,rfl,digitFits early last,needed,by rw [single]; rfl,?_⟩
      rw [single]
      exact consAtOffset.mpr ⟨hit, nil_prefix⟩
    · cases ok
  · rintro ⟨y,rfl,fits,needed,rfl,put⟩
    obtain ⟨rest,bytes,_⟩ := firstByte hit put
    rcases putUvarintLoopHead bytes with ⟨_,rfl,rfl⟩ | ⟨more,_⟩
    · rw [if_pos needed,bytes]
      rfl
    · omega

theorem restOfMore (hit : data[offset+k]? = some byte) (more : 128 ≤ byte.toNat) (early : k < 9) :
    RestOf data offset n (k+1) (res+2^(7*k)*(byte.toNat % 128)) x size ↔ RestOf data offset (n+1) k res x size := by
  have wide := widen k
  constructor
  · rintro ⟨y,rfl,fits,needed,rfl,put⟩
    have room : 2^(7*(k+1))*(y+1) ≤ 2^64 := by
      have whole : 2^64 = 2^(7*(k+1))*2^(64-7*(k+1)) := by
        rw [← pow_add]
        congr 1
        omega
      rw [whole] at fits ⊢
      exact Nat.mul_le_mul_left _ (Nat.lt_of_mul_lt_mul_left fits)
    have bytes : putUvarintLoop (n+1) (byte.toNat % 128+128*y) = byte::putUvarintLoop n y := by
      rw [putUvarintLoopMore (by omega),show (byte.toNat % 128+128*y) % 128+128 = byte.toNat by
        have := byte.toNat_lt
        omega,show (byte.toNat % 128+128*y)/128 = y by omega,UInt8.ofNat_toNat]
    refine ⟨byte.toNat % 128+128*y,by rw [wide]; ring,?_,by omega,by rw [bytes,length_cons]; omega,?_⟩
    · have grows : 2^(7*k)*(byte.toNat % 128+128*y) < 2^(7*k)*(128*(y+1)) :=
        Nat.mul_lt_mul_of_pos_left (by omega) (Nat.two_pow_pos _)
      have same : 2^(7*k)*(128*(y+1)) = 2^(7*(k+1))*(y+1) := by rw [wide]; ring
      omega
    · rw [bytes]
      exact consAtOffset.mpr ⟨hit,put⟩
  · rintro ⟨y,rfl,fits,needed,rfl,put⟩
    obtain ⟨rest,bytes,tail⟩ := firstByte hit put
    rcases putUvarintLoopHead bytes with ⟨low,_⟩ | ⟨_,digit,big,rfl⟩
    · omega
    have parts : y = byte.toNat % 128+128*(y/128) := by omega
    refine ⟨y/128,?_,?_,by omega,by rw [bytes,length_cons]; omega,tail⟩
    · rw [wide]
      conv => lhs; rw [parts]
      ring
    · have lower : 2^(7*k)*(128*(y/128)) ≤ 2^(7*k)*y := Nat.mul_le_mul_left _ (by omega)
      rw [wide,mul_assoc]
      omega

end

theorem readUintLoopIff {data offset x size} (n : Nat) {k res} (position : n+k = 9) (small : res < 2^(7*k)) :
    readUintLoop data offset (n+1) (offset+k) (7*k) res = .ok (x,size) ↔ RestOf data offset n k res x size := by
  induction n generalizing k res with
  | zero =>
    obtain rfl : k = 9 := by omega
    cases hit : data[offset+9]? with
    | none =>
      rw [readUintLoopNone hit]
      exact iff_of_false nofun (notRestOf hit)
    | some byte => exact readTenth hit small
  | succ n ih =>
    cases hit : data[offset+k]? with
    | none =>
      rw [readUintLoopNone hit]
      exact iff_of_false nofun (notRestOf hit)
    | some byte =>
      by_cases last : byte.toNat < 128
      · exact readLast hit last (by omega) small
      · have next := digitAdded small (show byte.toNat % 128 < 128 by omega)
        rw [readUintLoopMore hit (by omega) (by omega) small,ih (by omega) next]
        exact restOfMore hit (by omega) (by omega)

theorem readUintIff {data offset x size} : readUint data offset = .ok (x,size) ↔
      x < 2^64 ∧ size = (putUvarint x).length ∧ putUvarint x <+: data.drop offset := by
  have loop : readUintLoop data offset 10 (offset+0) (7*0) 0 = .ok (x,size) ↔ _ := readUintLoopIff 9 rfl (by simp)
  simp only [RestOf,mul_zero,pow_zero,one_mul,zero_add,true_or,true_and,add_zero] at loop
  exact loop.trans ⟨fun ⟨y,same,rest⟩ => same ▸ rest,fun rest => ⟨x,rfl,rest⟩⟩

structure Reads (r : Reader) (written : Bytes) (next : Reader) : Prop where
  here : written <+: r.data.drop r.index
  next : next = {r with index := r.index + written.length}

theorem readsNil (r : Reader) : Reads r [] r := ⟨ nil_prefix,rfl⟩

theorem readsAppend {next} : Reads r (a ++ b) next ↔ ∃ middle, Reads r a middle ∧ Reads middle b next := by
  constructor
  · rintro ⟨⟨rest,whole⟩,rfl⟩
    have after : b ++ rest = r.data.drop (r.index+a.length) := by
      rw [← drop_drop,← whole,append_assoc,drop_left]
    refine ⟨{r with index := r.index+a.length},⟨⟨b ++ rest,by rw [← whole,append_assoc]⟩,rfl⟩,⟨rest,after⟩,?_⟩
    simp [add_assoc]
  · rintro ⟨middle,⟨⟨rest,whole⟩,rfl⟩,⟨⟨after,tail⟩,rfl⟩⟩
    rw [← drop_drop,← whole,drop_left] at tail
    exact ⟨⟨after,by rw [← whole,← tail,append_assoc]⟩,by simp [add_assoc]⟩

theorem uintIff {r next x} : r.uint = .ok (x,next) ↔ x < 2^64 ∧ Reads r (putUvarint x) next := by
  unfold Reader.uint
  constructor
  · intro ok
    obtain ⟨⟨y,size⟩,read,ok⟩ := bindOk ok
    obtain ⟨rfl,rfl⟩ := Prod.mk.inj (Except.ok.inj ok)
    obtain ⟨small,rfl,here⟩ := readUintIff.mp read
    exact ⟨small,here,rfl⟩
  · rintro ⟨small,here,rfl⟩
    rw [readUintIff.mpr ⟨small,rfl,here⟩]
    rfl

theorem getKeySmall (wire : wireType = 0 ∨ wireType = 2) (small : fieldNumber < 2^32) :
    getKey wireType fieldNumber = some (putUvarint (8*fieldNumber+wireType)) := by
  have joined : fieldNumber <<< 3 ||| wireType = 8*fieldNumber+wireType := by
    rw [Nat.shiftLeft_eq,mul_comm,← Nat.two_pow_add_eq_or_of_lt (by omega)]
  have key : u64 (fieldNumber <<< 3 ||| wireType) = 8*fieldNumber+wireType := by
    rw [joined,u64Small (by omega)]
  unfold getKey
  simp only [key]
  obtain ⟨_,_,one | ⟨many,below⟩⟩ := putUvarintLoopLength 9 (x := 8 * fieldNumber+wireType) (by norm_num; omega)
  · rw [if_pos (by rw [putUvarint,one]; decide)]
  rw [if_pos]
  by_contra long
  have grows : 2^35 ≤ 2^(7*((putUvarintLoop 9 (8*fieldNumber+wireType)).length-1)) :=
    Nat.pow_le_pow_right (by decide) (by unfold putUvarint at long; omega)
  norm_num at grows
  omega

theorem readKeyIff : readKey key = .ok (number,wire) ↔ (wire = 0 ∨ wire = 2) ∧ key = 8*number+wire := by
  unfold readKey wireType0 wireType2
  constructor
  · intro ok
    simp only at ok
    split at ok
    · cases ok
    · obtain ⟨rfl,rfl⟩ := Prod.mk.inj (Except.ok.inj ok)
      omega
  · rintro ⟨allowed,rfl⟩
    have remainder : (8*number+wire) % 8 = wire := by omega
    have quotient : (8*number+wire)/8 = number := by omega
    simp only [remainder,quotient]
    rw [if_neg (by push_cast; omega)]

theorem intSmall (nonneg : 0 ≤ n) (small : n < 9223372036854775808) : int n = n := by
  unfold int
  rw [Int.bmod_def]
  omega

theorem intUint {n : Nat} (small : n < 2^64) : int n = n ∨ int n < 0 := by
  unfold int
  rw [Int.bmod_def]
  omega

theorem peekKeyIff {r : Reader} {key size} : r.peekKey = .ok (key,size) ↔
      ∃ x : Nat, x < 2^64 ∧ key = int x ∧ size = (putUvarint x).length ∧ putUvarint x <+: r.data.drop r.index := by
  unfold Reader.peekKey
  constructor
  · intro ok
    obtain ⟨⟨x,size'⟩,read,same⟩ := bindOk ok
    obtain ⟨rfl,rfl⟩ := Prod.mk.inj (Except.ok.inj same)
    obtain ⟨bounded,len,here⟩ := readUintIff.mp read
    exact ⟨x,bounded,rfl,len,here⟩
  · rintro ⟨x,bounded,rfl,rfl,here⟩
    rw [readUintIff.mpr ⟨bounded,rfl,here⟩]
    rfl

theorem checkReads {r next : Reader} {num wireType : Nat} (ok : r.check num wireType = .ok next) :
    (r.index : Int) < r.stop ∧ Reads r (putUvarint (8*num+wireType)) next := by
  unfold Reader.check at ok
  split at ok
  · cases ok
  rename_i more
  obtain ⟨⟨key,size⟩,peeked,decided⟩ := bindOk ok
  obtain ⟨⟨number,nextWire⟩,parsed,last⟩ := bindOk decided
  simp only at last
  split at last
  · cases last
  split at last
  · cases last
  rename_i sameNumber sameWire
  obtain ⟨x,bounded,rfl,rfl,here⟩ := peekKeyIff.mp peeked
  obtain ⟨_,whole⟩ := readKeyIff.mp parsed
  have value : x = 8*num+wireType := by
    rcases intUint bounded with plain | negative <;> omega
  subst value
  exact ⟨by omega,here,(Except.ok.inj last).symm⟩

theorem checkIff {r next : Reader} {num wireType} (wire : wireType = 0 ∨ wireType = 2) (small : num < 2^32) :
    r.check num wireType = .ok next ↔ (r.index : Int) < r.stop ∧ Reads r (putUvarint (8*num+wireType)) next := by
  constructor
  · exact checkReads
  rintro ⟨more,here,rfl⟩
  have plain : int (8*num+wireType : Nat) = 8*(num : Int)+wireType :=
    (intSmall (by omega) (by omega)).trans (by push_cast; rfl)
  have peeked := peekKeyIff.mpr ⟨8*num+wireType,by omega,rfl,rfl,here⟩
  rw [plain] at peeked
  have parsed : readKey (8*(num : Int)+wireType) = .ok (↑num,↑wireType) := readKeyIff.mpr ⟨by omega,rfl⟩
  unfold Reader.check
  rw [if_neg (by omega),peeked]
  simp only [bind,Except.bind,parsed]
  simp

theorem bytesIff {next} : r.bytes = .ok (d,next) ↔ d.length < 2^64 ∧ Reads r (bytes d) next := by
  unfold Reader.bytes bytes
  constructor
  · intro ok
    obtain ⟨⟨size,middle⟩,read,ok⟩ := bindOk ok
    obtain ⟨small,reads⟩ := uintIff.mp read
    simp only at ok
    split at ok
    · cases ok
    rename_i enough
    obtain ⟨rfl,rfl⟩ := Prod.mk.inj (Except.ok.inj ok)
    have len : ((middle.data.drop middle.index).take size).length = size := by
      rw [length_take,length_drop]
      omega
    rw [len,u64Small (by simpa using small)]
    refine ⟨small,readsAppend.mpr ⟨middle,reads, take_prefix _ _,by rw [len]⟩⟩
  · rintro ⟨small,reads⟩
    rw [u64Small (by simpa using small)] at reads
    obtain ⟨middle,first,⟨⟨rest,here⟩,rfl⟩⟩ := readsAppend.mp reads
    rw [uintIff.mpr ⟨small,first⟩]
    have room : d.length ≤ middle.data.length-middle.index := by
      rw [← length_drop,← here,length_append]
      omega
    simp only [bind,Except.bind]
    rw [if_neg (by omega),← here,take_left]

theorem utf8OfString : String.fromUTF8? ⟨d.toArray⟩ = some s ↔ d = utf8 s := by
  unfold String.fromUTF8? utf8
  constructor
  · intro ok
    split at ok
    · cases some.inj ok
      rfl
    · cases ok
  · rintro rfl
    exact dif_pos s.isValidUTF8

theorem stringIff {next} : r.string text = .ok (s,next) ↔
      text.isNormal s = true ∧ (utf8 s).length < 2^64 ∧ Reads r (bytes (utf8 s)) next := by
  unfold Reader.string
  constructor
  · intro ok
    obtain ⟨⟨d,middle⟩,read,ok⟩ := bindOk ok
    simp only at ok
    split at ok
    · cases ok
    rename_i s' dec
    split at ok
    · rename_i normal
      obtain ⟨rfl,rfl⟩ := Prod.mk.inj (Except.ok.inj ok)
      rw [utf8OfString.mp dec] at read
      exact ⟨normal,bytesIff.mp read⟩
    · cases ok
  · rintro ⟨normal,reads⟩
    rw [bytesIff.mpr reads]
    simp [bind,Except.bind,utf8OfString.mpr rfl,normal]

theorem boolIff {r next b} : r.bool = .ok (b,next) ↔ Reads r (bool b) next := by
  unfold Reader.bool Writer.bool
  have step : Reads r [if b then 1 else 0] next ↔
      r.data[r.index]? = some (if b then 1 else 0) ∧ next = {r with index := r.index+1} :=
    ⟨fun ⟨here,same⟩ => ⟨(consAtOffset.mp here).1,same⟩, fun ⟨here,same⟩ => ⟨consAtOffset.mpr ⟨here, nil_prefix⟩,same⟩⟩
  rw [step]
  cases r.data[r.index]? with
  | none => simp
  | some target =>
    by_cases zero : target = 0
    · subst zero; cases b <;> simp [eq_comm]
    · by_cases one : target = 1
      · subst one; cases b <;> simp [eq_comm]
      · cases b <;> simp [zero,one]

theorem sintWritten {next} (above : -9223372036854775808 < x) (below : x < 9223372036854775808)
    (reads : Reads r (putVarint x) next) : r.sint = .ok (x,next) := by
  unfold putVarint at reads
  unfold Reader.sint
  split at reads
  · rename_i nonneg
    rw [uintIff.mpr ⟨by omega,reads⟩]
    simp only [bind,Except.bind]
    rw [if_pos (by omega),show ((2*x.toNat/2 : Nat) : Int) = x by omega]
  · rename_i negative
    rw [uintIff.mpr ⟨by omega,reads⟩]
    simp only [bind,Except.bind]
    rw [if_neg (by omega),u64Small (by omega),show -((2*(-x).toNat-1+1)/2 : Nat) = x by omega]

end LiskEngine.Codec
