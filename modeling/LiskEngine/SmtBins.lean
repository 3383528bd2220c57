import LiskEngine.SmtSubtree

/-! The bins of an update. Key bits number the bins, the running sizes count the
writes on a part of them, and a node with at most one write is settled at once. -/
namespace LiskEngine.Smt
open List SparseTree

def keyBit (key : Bytes) (i : Nat) : Bool :=
  match key[i / 8]? with
  | some byte => bitOf byte (i % 8)
  | none => false

theorem isBitSetKey (inside : i < 8*key.length) : isBitSet key i = .ok (keyBit key i) := by
  have hit : i/8 < key.length := by omega
  simp [isBitSet,keyBit,index,getElem?_eq_getElem hit,bind,Except.bind]

def binValue : Nat → Nat → Bytes → Nat
  | 0, _, _ => 0
  | j + 1, d, key => (if keyBit key d then 2 ^ j else 0) + binValue j (d + 1) key

theorem binValueLt (j d : Nat) (key : Bytes) : binValue j d key < 2^j := by
  induction j generalizing d with
  | zero => exact Nat.one_pos
  | succ j ih =>
    have below := ih (d+1)
    rw [binValue,pow_succ]
    split <;> omega

def byteValue (byte : UInt8) : Nat :=
  ((List.range 8).map (fun i => if bitOf byte i then 2 ^ (7 - i) else 0)).sum

theorem byteValueNat (byte : UInt8) : byteValue byte = byte.toNat := by
  have all : ∀ n : Fin 256, byteValue (UInt8.ofNat n) = n := by decide +kernel
  have one := all ⟨byte.toNat,UInt8.toNat_lt byte⟩
  simpa using one

theorem binValueByte (hit : key[b]? = some byte) : binValue 8 (8*b) key = byte.toNat := by
  have bit : ∀ i, i < 8 → keyBit key (8*b+i) = bitOf byte i := by
    intro i small
    have high : (8*b+i)/8 = b := by omega
    have low : (8*b+i) % 8 = i := by omega
    simp only [keyBit,high,low,hit]
  rw [← byteValueNat]
  have b0 := bit 0 (by decide)
  have b1 := bit 1 (by decide)
  have b2 := bit 2 (by decide)
  have b3 := bit 3 (by decide)
  have b4 := bit 4 (by decide)
  have b5 := bit 5 (by decide)
  have b6 := bit 6 (by decide)
  have b7 := bit 7 (by decide)
  simp only [add_zero] at b0
  simp [binValue,byteValue,range_succ,b0,b1,b2,b3,b4,b5,b6,b7,add_assoc]

theorem keySeparated (length : Nat) : SparseTree.Separated keyBit (8*length) 0 (·.length = length) := by
  intro k k' size size' differ
  by_contra same
  refine differ (ext_getElem (size.trans size'.symm) (fun i inside inside' => ?_))
  have bits : ∀ j d, 8*i ≤ d → d+j ≤ 8*i+8 → binValue j d k = binValue j d k' := by
    intro j
    induction j with
    | zero => exact fun _ _ _ => rfl
    | succ j ih =>
      intro d low high
      have bit : keyBit k d = keyBit k' d := by
        by_contra differs
        exact same ⟨d,Nat.zero_le _,by omega,differs⟩
      rw [binValue,binValue,bit,ih (d+1) (by omega) (by omega)]
  have value := bits 8 (8*i) (le_refl _) (le_refl _)
  rw [binValueByte (getElem?_eq_getElem inside),binValueByte (getElem?_eq_getElem inside')] at value
  exact UInt8.toNat_inj.mp value

def binsOf : Nat → Nat → List KeyValue → List (List KeyValue)
  | 0, _, keyValues => [keyValues]
  | j + 1, d, keyValues => binsOf j (d + 1) (keyValues.filter (fun kv => !keyBit kv.1 d)) ++
      binsOf j (d + 1) (keyValues.filter (fun kv => keyBit kv.1 d))

theorem binsLength (j d : Nat) (keyValues : List KeyValue) : (binsOf j d keyValues).length = 2^j := by
  induction j generalizing d keyValues with
  | zero => rfl
  | succ j ih => rw [binsOf,length_append,ih,ih,pow_succ,mul_two]

theorem binsFlatten (j d : Nat) (keyValues : List KeyValue) : (binsOf j d keyValues).flatten.Perm keyValues := by
  induction j generalizing d keyValues with
  | zero => simp [binsOf]
  | succ j ih =>
    rw [binsOf,flatten_append]
    refine ((ih _ _).append (ih _ _)).trans (perm_append_comm.trans ?_)
    simpa using filter_append_perm (fun kv : KeyValue => keyBit kv.1 d) keyValues

theorem binsShare {j d binOffset} {bins : List (List KeyValue)} {keyValues}
    (share : (bins.drop binOffset).take (2^(j+1)) = binsOf (j+1) d keyValues) :
    (bins.drop binOffset).take (2^j) = binsOf j (d+1) (keyValues.filter (fun kv => !keyBit kv.1 d)) ∧
    (bins.drop (binOffset+2^j)).take (2^j) = binsOf j (d+1) (keyValues.filter (fun kv => keyBit kv.1 d)) := by
  have size := binsLength j (d+1) (keyValues.filter (fun kv => !keyBit kv.1 d))
  have double : 2^(j+1) = 2^j+2^j := by rw [pow_succ,mul_two]
  constructor
  · have first := congrArg (take (2^j)) share
    rwa [take_take,min_eq_left (by omega),binsOf,take_left' size] at first
  · have second := congrArg (drop (2^j)) share
    rwa [drop_take,drop_drop,binsOf,drop_left' size,double,Nat.add_sub_cancel] at second

theorem binsValues (j d : Nat) (keyValues : List KeyValue) : binsOf j d keyValues =
    (List.range (2^j)).map (fun i => keyValues.filter (fun kv => binValue j d kv.1 = i)) := by
  induction j generalizing d keyValues with
  | zero => simp [binsOf,binValue]
  | succ j ih =>
    rw [binsOf,ih,ih,pow_succ,mul_two,range_add,map_append,map_map]
    congr 1
    · refine map_congr_left (fun i inside => ?_)
      have small := mem_range.mp inside
      rw [filter_filter]
      refine filter_congr (fun kv _ => ?_)
      cases bit : keyBit kv.1 d with
      | false => simp [binValue,bit]
      | true =>
        simp only [binValue,bit,if_true,Bool.not_true,Bool.and_false]
        exact (decide_eq_false (by omega)).symm
    · refine map_congr_left (fun i _ => ?_)
      rw [filter_filter]
      refine filter_congr (fun kv _ => ?_)
      have small := binValueLt j (d+1) kv.1
      cases bit : keyBit kv.1 d with
      | false =>
        simp only [binValue,bit,Bool.and_false,Bool.false_eq_true,if_false]
        exact (decide_eq_false (by omega)).symm
      | true => simp [binValue,bit]

theorem fillBinsOf (indexes : ∀ kv ∈ keyValues, getBinIndex t kv.1 d (d/8) = .ok (binValue t.subtreeHeight d kv.1)) :
    fillBins t d keyValues = .ok (binsOf t.subtreeHeight d keyValues) := by
  have indexed : indexKeys t d keyValues = .ok (keyValues.map (fun kv => (binValue t.subtreeHeight d kv.1,kv))) := by
    induction keyValues with
    | nil => rfl
    | cons kv rest ih =>
      rw [indexKeys,indexes kv (.head _),ih (fun kv mem => indexes kv (.tail _ mem))]
      rfl
  rw [fillBins,indexed,binsValues]
  simp [bind,Except.bind,Trie.maxNumberOfNodes,filter_map,Function.comp_def]

/-- Keys on one path below some depth, among the keys `P`. -/
structure Path (P : Bytes → Prop) (d : Nat) (Q : Bytes → Prop) : Prop where
  among : ∀ key, Q key → P key
  shared : ∀ a c, Q a → Q c → ∀ i < d, keyBit a i = keyBit c i

theorem Path.split (path : Path P d Q) (b : Bool) : Path P (d+1) (fun key => Q key ∧ keyBit key d = b) where
  among key inside := path.among key inside.1
  shared a c inside inside' i below := by
    rcases Nat.lt_succ_iff_lt_or_eq.mp below with earlier | rfl
    · exact path.shared a c inside.1 inside'.1 i earlier
    · exact inside.2.trans inside'.2.symm

def Binned (t : Trie) (P : Bytes → Prop) : Prop :=
  ∀ b Q keyValues, Path P (t.subtreeHeight * b) Q → (0 < b → ∃ a c, Q a ∧ Q c ∧ a ≠ c) →
    (∀ kv ∈ keyValues, Q kv.1 ∧ t.subtreeHeight * b < 8 * kv.1.length) →
    fillBins t (t.subtreeHeight * b) keyValues = .ok (binsOf t.subtreeHeight (t.subtreeHeight * b) keyValues)

theorem binnedEight (eight : t.subtreeHeight = 8) (P : Bytes → Prop) : Binned t P := by
  intro b Q keyValues _ _ inside
  refine fillBinsOf (fun kv mem => ?_)
  have room := (inside kv mem).2
  rw [eight] at room ⊢
  have hit := getElem?_eq_getElem (show b < kv.1.length by omega)
  rw [binValueByte hit,Nat.mul_div_cancel_left b (by decide)]
  simp [getBinIndex,eight,index,hit,bind,Except.bind]

/-- Two keys that agree through an upper half byte have its lower half clear. -/
def LowClear (P : Bytes → Prop) : Prop :=
  ∀ a c, P a → P c → a ≠ c → ∀ k, (∀ i < 8 * k + 4, keyBit a i = keyBit c i) →
    ∀ i, 8 * k + 4 ≤ i → i < 8 * k + 8 → keyBit a i = false

theorem binValueAppend (j k d : Nat) (key : Bytes) : binValue (j+k) d key = 2^k*binValue j d key+binValue k (d+j) key := by
  induction j generalizing d with
  | zero => simp [binValue]
  | succ j ih =>
    rw [Nat.add_right_comm j 1 k,binValue,binValue,ih,Nat.pow_add,show d+1+j = d+(j+1) by omega,Nat.mul_add]
    split
    · rw [mul_comm (2^j),add_assoc]
    · simp

theorem binValueClear (clear : ∀ i, d ≤ i → i < d+j → keyBit key i = false) : binValue j d key = 0 := by
  induction j generalizing d with
  | zero => rfl
  | succ j ih =>
    rw [binValue,clear d (le_refl _) (by omega),ih (fun i low high => clear i (by omega) (by omega))]
    rfl

theorem binnedFour (four : t.subtreeHeight = 4) (clear : LowClear P) : Binned t P := by
  intro b Q keyValues path crowded inside
  refine fillBinsOf (fun kv mem => ?_)
  obtain ⟨here,room⟩ := inside kv mem
  rw [four] at path room ⊢
  obtain ⟨byte,hit⟩ : ∃ byte, kv.1[4 * b/8]? = some byte := ⟨_,getElem?_eq_getElem (by omega)⟩
  have value := binValueByte hit
  have small := UInt8.toNat_lt byte
  have low := binValueLt 4 (8*(4*b/8)+4) kv.1
  rw [binValueAppend 4 4] at value
  simp only [getBinIndex,four,index,hit,bind,Except.bind,if_true,Nat.shiftRight_eq_div_pow]
  rcases Nat.mod_two_eq_zero_or_one b with even | odd
  · rw [show 8*(4*b/8) = 4*b by omega] at value low
    rw [if_pos (by omega)]
    congr 1
    omega
  · rw [if_neg (by omega),if_pos (by omega)]
    obtain ⟨a,c,insideA,insideC,differ⟩ := crowded (by omega)
    have zero : binValue 4 (4*b) kv.1 = 0 := by
      obtain ⟨other,insideOther,apart⟩ : ∃ other, Q other ∧ kv.1 ≠ other := by
        by_cases same : kv.1 = a
        · exact ⟨c,insideC,same ▸ differ⟩
        · exact ⟨a,insideA,same⟩
      refine binValueClear (fun i above below => ?_)
      refine clear kv.1 other (path.among _ here) (path.among _ insideOther) apart (b/2) (fun i' shared => ?_) i (by omega) (by omega)
      exact path.shared _ _ here insideOther i' (by omega)
    congr 1
    omega

theorem lengthBinsAppend (base : Nat) (xs ys : List (List KeyValue)) :
    lengthBins base (xs ++ ys) = lengthBins base xs ++ lengthBins (base+xs.flatten.length) ys := by
  induction xs generalizing base with
  | nil => simp [lengthBins]
  | cons x rest ih => simp [lengthBins,ih,add_assoc]

theorem lengthBinsLength (base : Nat) (xs : List (List KeyValue)) : (lengthBins base xs).length = xs.length := by
  induction xs generalizing base with
  | nil => rfl
  | cons x rest ih => simp [lengthBins,ih]

theorem lengthBinsLast (base : Nat) (ne : xs ≠ []) : (lengthBins base xs).getLast? = some (base+xs.flatten.length) := by
  obtain ⟨init,last,rfl⟩ : ∃ init last, xs = init ++ [last] :=
    ⟨xs.dropLast,xs.getLast ne,(dropLast_append_getLast ne).symm⟩
  rw [lengthBinsAppend]
  simp [lengthBins,add_assoc]

theorem lengthBinsHalf (size : xs.length = k) (pos : 0 < k) (base : Nat) (ys : List (List KeyValue)) :
    (lengthBins base (xs ++ ys)).take k = lengthBins base xs ∧
    (lengthBins base (xs ++ ys)).drop k = lengthBins (base+xs.flatten.length) ys ∧
    index (lengthBins base (xs ++ ys)) (k-1) = .ok (base+xs.flatten.length) := by
  have length : (lengthBins base xs).length = k := by rw [lengthBinsLength,size]
  rw [lengthBinsAppend]
  refine ⟨take_left' length,drop_left' length,indexOk ?_⟩
  have nonempty : xs ≠ [] := by
    rintro rfl
    exact absurd size pos.ne
  rw [getElem?_append_left (by omega),← lengthBinsLast base nonempty,getLast?_eq_getElem?,length]

theorem findSingle (single : bins.flatten = [kv]) (base : Nat) :
    ∃ i, (lengthBins base bins).findIdx? (· = base+1) = some i ∧ bins[i]? = some [kv] := by
  induction bins with
  | nil => simp at single
  | cons bin rest ih =>
    cases bin with
    | nil =>
      obtain ⟨i,hit,bin⟩ := ih (by simpa using single)
      exact ⟨i+1,by simpa [lengthBins,findIdx?_cons] using hit,by simpa using bin⟩
    | cons first more =>
      simp only [flatten_cons,cons_append,cons.injEq,append_eq_nil_iff] at single
      obtain ⟨rfl,rfl,_⟩ := single
      exact ⟨0,by simp [lengthBins,findIdx?_cons],rfl⟩

def writeNode (kv : KeyValue) (currentNode : Node) : Option Node :=
  match currentNode with
  | .empty => some (if kv.2.length ≠ 0 then .leaf kv.1 kv.2 else .empty)
  | .leaf currentKey _ =>
    if currentKey = kv.1 then some (if kv.2.length ≠ 0 then .leaf kv.1 kv.2 else .empty) else none
  | _ => none

theorem writeNodeKind (wrote : writeNode kv old = some new) : new = .leaf kv.1 kv.2 ∨ new = .empty := by
  have kinds : ∀ {n : Node}, some (if kv.2.length ≠ 0 then Node.leaf kv.1 kv.2 else .empty) = some n →
      n = .leaf kv.1 kv.2 ∨ n = .empty := by
    intro n same
    cases same
    split
    · exact .inl rfl
    · exact .inr rfl
  cases old with
  | empty => exact kinds wrote
  | leaf key value =>
    simp only [writeNode] at wrote
    split at wrote
    · exact kinds wrote
    · cases wrote
  | stub nodeHash | temp => cases wrote

def settledBy (keyValues : List KeyValue) (currentNode : Node) : Option Node :=
  match keyValues with
  | [] => some currentNode
  | [kv] => writeNode kv currentNode
  | _ => none

theorem settledNodeBins (j d base : Nat) (keyValues : List KeyValue) (currentNode : Node) :
    settledNode (binsOf j d keyValues) (lengthBins base (binsOf j d keyValues)) base currentNode =
      .ok (settledBy keyValues currentNode) := by
  have perm := binsFlatten j d keyValues
  have ne : binsOf j d keyValues ≠ [] := by
    intro none
    have count := binsLength j d keyValues
    rw [none] at count
    exact absurd count.symm (Nat.two_pow_pos j).ne'
  unfold settledNode
  rw [lengthBinsLast base ne,perm.length_eq]
  match keyValues, perm with
  | [], _ => simp [settledBy]
  | [kv], perm =>
    obtain ⟨i,hit,bin⟩ := findSingle (perm_singleton.mp perm) base
    have first := indexOk bin
    simp only [length_singleton,Nat.add_sub_cancel_left,Nat.one_ne_zero,if_false,if_true,singleUpdate,hit,first,
      bind,Except.bind]
    cases currentNode <;> simp only [settledBy,writeNode,index,getElem?_cons_zero]
    split <;> rfl
  | kv::kv'::rest, _ => simp [settledBy]

def writes (keyValues : List KeyValue) : List (Bytes × Option Bytes) :=
  keyValues.map (fun kv => (kv.1, if kv.2.length ≠ 0 then some kv.2 else none))

theorem writesKeys (keyValues : List KeyValue) : (writes keyValues).map Prod.fst = keyValues.map Prod.fst := by
  simp [writes,Function.comp_def]

theorem writesFilter (p : Bytes → Bool) (keyValues : List KeyValue) :
    writes (keyValues.filter (fun kv => p kv.1)) = (writes keyValues).filter (fun u => p u.1) := by
  simp [writes,filter_map,Function.comp_def]

abbrev treeOf (n d : Nat) (entries : List KeyValue) : Tree := SparseTree.build keyBit n d entries

def written (keyValues entries : List KeyValue) : List KeyValue := SparseTree.written (writes keyValues) entries

theorem writtenSplit (p : Bytes → Bool) (keyValues es : List KeyValue) :
    (written keyValues es).filter (fun e => p e.1) =
      written (keyValues.filter (fun kv => p kv.1)) (es.filter (fun e => p e.1)) := by
  rw [written,written,writesFilter,writtenFilter]

/-- A part of the key space with `n` bits left below depth `d`, its entries and the writes on it. -/
structure Region (keyLength n d : Nat) (P : Bytes → Prop) (entries keyValues : List KeyValue) : Prop where
  separated : SparseTree.Separated keyBit n d P
  sized : ∀ key, P key → key.length = keyLength
  bottom : d + n = 8 * keyLength
  entriesIn : ∀ e ∈ entries, P e.1
  entriesDistinct : (entries.map Prod.fst).Nodup
  writesIn : ∀ kv ∈ keyValues, P kv.1
  writesDistinct : (keyValues.map Prod.fst).Nodup

section
variable {len n d : Nat} {P : Bytes → Prop} {es keyValues : List KeyValue}

section
variable (region : Region len (n + 1) d P es keyValues)
include region

theorem Region.split (b : Bool) : Region len n (d+1) (fun key => P key ∧ keyBit key d = b) (es.filter (fun e => keyBit e.1 d == b))
      (keyValues.filter (fun kv => keyBit kv.1 d == b)) where
  separated := separatedSplit region.separated b
  sized key inside := region.sized key inside.1
  bottom := by have := region.bottom; omega
  entriesIn e member := by
    obtain ⟨old,side⟩ := mem_filter.mp member
    exact ⟨region.entriesIn e old,by simpa using side⟩
  entriesDistinct := region.entriesDistinct.sublist (filter_sublist.map _)
  writesIn kv member := by
    obtain ⟨old,side⟩ := mem_filter.mp member
    exact ⟨region.writesIn kv old,by simpa using side⟩
  writesDistinct := region.writesDistinct.sublist (filter_sublist.map _)

theorem Region.left : Region len n (d+1) (fun key => P key ∧ keyBit key d = false) (es.filter (fun e => !keyBit e.1 d))
      (keyValues.filter (fun kv => !keyBit kv.1 d)) := by
  simpa using region.split false

theorem Region.right : Region len n (d+1) (fun key => P key ∧ keyBit key d = true) (es.filter (fun e => keyBit e.1 d))
      (keyValues.filter (fun kv => keyBit kv.1 d)) := by
  simpa using region.split true

end

section
variable (region : Region len n d P es keyValues)
include region

theorem Region.apart : SparseTree.Apart keyBit n d es := apartOf region.separated region.entriesIn region.entriesDistinct

theorem Region.writtenIn : ∀ e ∈ written keyValues es, P e.1 := by
  refine writtenKeys region.entriesIn (fun u mem => ?_)
  obtain ⟨kv,old,rfl⟩ := mem_map.mp mem
  exact region.writesIn kv old

theorem Region.writtenDistinct : ((written keyValues es).map Prod.fst).Nodup :=
  SparseTree.writtenDistinct region.entriesDistinct (by rw [writesKeys]; exact region.writesDistinct)

theorem Region.writtenApart : SparseTree.Apart keyBit n d (written keyValues es) :=
  apartOf region.separated region.writtenIn region.writtenDistinct

theorem Region.treeIn : ∀ e ∈ (treeOf n d es).entries, P e.1 :=
  fun e mem => region.entriesIn e ((buildEntries region.apart).mem_iff.mp mem)

theorem Region.writtenTreeIn : ∀ e ∈ (treeOf n d (written keyValues es)).entries, P e.1 :=
  fun e mem => region.writtenIn e ((buildEntries region.writtenApart).mem_iff.mp mem)

end

theorem treeHalves (n d : Nat) (es : List KeyValue) : treeOf (n+1) d es = (treeOf n (d+1) (es.filter (fun e => !keyBit e.1 d))).join
      (treeOf n (d+1) (es.filter (fun e => keyBit e.1 d))) :=
  buildSucc n d es

theorem treeSplit (keyValues es : List KeyValue) (n d : Nat) : treeOf (n+1) d (written keyValues es) =
    (treeOf n (d+1) (written (keyValues.filter (fun kv => !keyBit kv.1 d)) (es.filter (fun e => !keyBit e.1 d)))).join
      (treeOf n (d+1) (written (keyValues.filter (fun kv => keyBit kv.1 d)) (es.filter (fun e => keyBit e.1 d)))) := by
  rw [← writtenSplit (fun key => !keyBit key d),← writtenSplit (fun key => keyBit key d),treeHalves]

theorem writtenSingle (kv : KeyValue) (kept : List KeyValue) (same : ∀ e ∈ kept, e.1 = kv.1) (n d : Nat) (sha : Bytes → Bytes)
    (j : Nat) : cut sha j (treeOf n d (written [kv] kept)) = .tip (if kv.2.length ≠ 0 then .leaf kv.1 kv.2 else .empty) := by
  have removed : kept.filter (fun e => decide (e.1 ∉ [kv.1])) = [] := by
    refine filter_eq_nil_iff.mpr (fun e mem => ?_)
    simp [same e mem]
  have es : written [kv] kept = if kv.2.length ≠ 0 then [kv] else [] := by
    unfold written SparseTree.written
    simp only [writes,map_cons,map_nil,removed,nil_append]
    split <;> simp
  rw [es]
  split
  · rw [treeOf,buildSingle n d kv.1 kv.2,cutLeaf]
  · rw [treeOf,buildNil,cutEmpty]

section
variable (region : Region len n d P es keyValues)
include region

theorem Region.settled (shape : cut sha j (treeOf n d es) = .tip old) (settled : settledBy keyValues old = some new) :
    cut sha j (treeOf n d (written keyValues es)) = .tip new := by
  match keyValues, settled with
  | [], settled =>
    cases settled
    simpa [written,writes,writtenNil] using shape
  | [kv], settled =>
    rcases cutTip shape with ⟨isEmpty,rfl⟩ | ⟨key,value,isLeaf,rfl⟩ | ⟨l,r,_,_,rfl⟩
    · cases settled
      cases buildEmpty region.apart isEmpty
      exact writtenSingle kv [] (by simp) n d sha j
    · cases buildLeaf region.apart isLeaf
      simp only [settledBy,writeNode] at settled
      split at settled
      · rename_i same
        cases settled
        exact writtenSingle kv [(key,value)] (by simpa using same) n d sha j
      · cases settled
    · cases settled

theorem Region.crowded (shape : cut sha j (treeOf n d es) = .tip old) (unsettled : settledBy keyValues old = none) :
    ∃ a c, P a ∧ P c ∧ a ≠ c := by
  match keyValues, region, unsettled with
  | [kv], region, unsettled =>
    rcases cutTip shape with ⟨isEmpty,rfl⟩ | ⟨key,value,isLeaf,rfl⟩ | ⟨l,r,_,isNode,rfl⟩
    · cases unsettled
    · cases buildLeaf region.apart isLeaf
      simp only [settledBy,writeNode] at unsettled
      split at unsettled
      · cases unsettled
      · rename_i differ
        exact ⟨key,kv.1,region.entriesIn (key,value) (by simp),region.writesIn kv (by simp),differ⟩
    · match es, region, isNode with
      | [], _, isNode => simp [treeOf,buildNil] at isNode
      | [e], _, isNode => simp [treeOf,buildSingle n d e.1 e.2] at isNode
      | e::e'::rest, region, _ =>
        have nodup := region.entriesDistinct
        simp only [map_cons,nodup_cons,mem_cons,not_or] at nodup
        exact ⟨e.1,e'.1,region.entriesIn e (by simp),region.entriesIn e' (by simp),nodup.1.1⟩
  | kv::kv'::rest, region, _ =>
    have nodup := region.writesDistinct
    simp only [map_cons,nodup_cons,mem_cons,not_or] at nodup
    exact ⟨kv.1,kv'.1,region.writesIn kv (by simp),region.writesIn kv' (by simp),nodup.1.1⟩

theorem Region.deeper (crowded : ∃ a c, P a ∧ P c ∧ a ≠ c) : 0 < n := by
  obtain ⟨a,c,inside,inside',differ⟩ := crowded
  obtain ⟨i,low,high,_⟩ := region.separated a c inside inside' differ
  omega

end

theorem Region.splitTip (region : Region len (n+1) d P es keyValues) (shape : cut sha (j+1) (treeOf (n+1) d es) = .tip old) :
    ∃ left right, splitNode old d = .ok (left,right) ∧ cut sha j (treeOf n (d+1) (es.filter (fun e => !keyBit e.1 d))) = .tip left ∧
      cut sha j (treeOf n (d+1) (es.filter (fun e => keyBit e.1 d))) = .tip right ∧
      (∀ a b, treeOf n (d+1) (es.filter (fun e => !keyBit e.1 d)) ≠ .node a b) ∧
      (∀ a b, treeOf n (d+1) (es.filter (fun e => keyBit e.1 d)) ≠ .node a b) := by
  rcases cutTip shape with ⟨isEmpty,rfl⟩ | ⟨key,value,isLeaf,rfl⟩ | ⟨l,r,zero,_,_⟩
  · cases buildEmpty region.apart isEmpty
    refine ⟨.empty,.empty,rfl,?_⟩
    simp [treeOf,buildNil]
  · cases buildLeaf region.apart isLeaf
    have bits := region.bottom
    have size := region.sized key (region.entriesIn (key,value) (by simp))
    have bit : isBitSet key d = .ok (keyBit key d) := isBitSetKey (by omega)
    cases side : keyBit key d with
    | false =>
      refine ⟨.leaf key value,.empty,by simp [splitNode,bit,side,bind,Except.bind],?_⟩
      simp [treeOf,side,buildNil,buildSingle]
    | true =>
      refine ⟨.empty,.leaf key value,by simp [splitNode,bit,side,bind,Except.bind],?_⟩
      simp [treeOf,side,buildNil,buildSingle]
  · cases zero

end
end LiskEngine.Smt
