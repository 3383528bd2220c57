import LiskEngine.BlockTables
import LiskEngine.BftParams

/-! The parameters store as bytes: heights are keys of four bytes, parameters are encoded
messages. -/
namespace LiskEngine.Liskbft
open Codec Blockchain List Option OrderedMap BFTParams
open Nat (zero_le)
open Diffdb (iterateRange)

def BFTValidator.schema : Schema := .cons 1 .bytes (.cons 2 .uint64 (.cons 3 .bytes .nil))

def BFTValidator.value (v : BFTValidator) : BFTValidator.schema.Value := (v.address, v.bftWeight, v.blsKey, ())

def BFTValidator.ofValue : BFTValidator.schema.Value → BFTValidator
  | (address, bftWeight, blsKey, ()) => ⟨address,bftWeight,blsKey⟩

def BFTParams.schema : Schema :=
  .cons 1 .uint64 (.cons 2 .uint64 (.cons 3 .uint64 (.cons 4 (.messageArray BFTValidator.schema) (.cons 5 .bytes .nil))))

def BFTParams.value (p : BFTParams) : BFTParams.schema.Value :=
  (p.prevoteThreshold, p.precommitThreshold, p.certificateThreshold, p.validators.map (fun v => some v.value),
    p.validatorsHash, ())

def BFTParams.ofValue : BFTParams.schema.Value → BFTParams
  | (prevoteThreshold, precommitThreshold, certificateThreshold, validators, validatorsHash, ()) =>
    ⟨prevoteThreshold,precommitThreshold,certificateThreshold,
      (show List (Option BFTValidator.schema.Value) from validators).filterMap (Option.map BFTValidator.ofValue),validatorsHash⟩

namespace Encoded

inductive StoreError where
  | bftParamsNotFound
  | bftParametersShouldAlwaysExist
  | codec (e : CodecError)
  | runtimePanic
  deriving DecidableEq, Repr

section
variable (text : Normalizer)

/-- A slice has less than 2^63 bytes; a writer that needs more panics. -/
def encode (p : BFTParams) : Except StoreError Bytes :=
  match BFTParams.schema.encode text p.value with
  | some data => if data.length < 9223372036854775808 then .ok data else .error .runtimePanic
  | none => .error .runtimePanic

def decode (data : Bytes) : Except StoreError BFTParams :=
  match BFTParams.schema.decode text data with
  | .ok x => .ok (BFTParams.ofValue x)
  | .error e => .error (.codec e)

def getBFTParams (paramsStore : OrderedMap Bytes Bytes) (height : Nat) : Except StoreError BFTParams :=
  match iterateRange paramsStore (fromUint32 0) (fromUint32 height) 1 true with
  | [kv] => decode text kv.2
  | _ => .error .bftParamsNotFound

structure BftParamsCache where
  paramsStore : OrderedMap Bytes Bytes
  data : List (Nat × BFTParams)

def newBFTParamsCache (paramsStore : OrderedMap Bytes Bytes) : BftParamsCache := ⟨paramsStore,[]⟩

namespace BftParamsCache

def cacheHeight (kv : List (Bytes × Bytes)) (data : List (Nat × BFTParams)) (height : Nat) :
    Except StoreError (List (Nat × BFTParams)) :=
  match kv.find? (fun element => toUint32 element.1 ≤ height) with
  | none => .error .bftParametersShouldAlwaysExist
  | some element => do
    let params ← decode text element.2
    .ok ((height, params) :: data)

def listed (c : BftParamsCache) (start stop : Nat) : Except StoreError (List (Bytes × Bytes)) := do
  let kv := iterateRange c.paramsStore (fromUint32 start) (fromUint32 stop) (-1) true
  if start > 0 then
    let nextLowest ← getBFTParams text c.paramsStore start
    let encodedNextLowest ← encode text nextLowest
    .ok (kv ++ [(fromUint32 start, encodedNextLowest)])
  else .ok kv

/-- The loop variable is a 32 bit counter, so a loop up to the greatest height
wraps to zero and never returns normally. -/
def cache (c : BftParamsCache) (start stop : Nat) : Except StoreError BftParamsCache := do
  let kv ← c.listed text start stop
  if stop ≥ maxUint32 then .error .bftParametersShouldAlwaysExist
  else do
    let data ← (List.range' start (stop + 1 - start)).foldlM (cacheHeight text kv) c.data
    .ok {c with data := data}

def getParameters (c : BftParamsCache) (height : Nat) : Except StoreError BFTParams × BftParamsCache :=
  match c.data.lookup height with
  | some cached => (.ok cached, c)
  | none =>
    match getBFTParams text c.paramsStore height with
    | .error e => (.error e, c)
    | .ok params => (.ok params, {c with data := (height, params) :: c.data})

def getAll : BftParamsCache → List Nat → List (Except StoreError BFTParams)
  | _, [] => []
  | c, height :: rest => (c.getParameters text height).1 :: (c.getParameters text height).2.getAll rest

end BftParamsCache
end

variable {text : Normalizer}

theorem messagesValue {V : Type} {fields : Schema} (value : V → fields.Value) (ofValue : fields.Value → V)
    {xs : List (Option fields.Value)} (set : ∀ e ∈ xs, ∃ v, e = some v ∧ value (ofValue v) = v) :
    (xs.filterMap (Option.map ofValue)).map (fun v => some (value v)) = xs := by
  induction xs with
  | nil => rfl
  | cons e rest ih =>
    obtain ⟨v,rfl,same⟩ := set e (by simp)
    have later := ih (fun e' mem => set e' (by simp [mem]))
    simp only [filterMap_cons,map_some,map_cons,later,same]

theorem paramsValue {x : schema.Value} (valid : schema.Valid text x) : (ofValue x).value = x := by
  obtain ⟨prevoteThreshold,pre,cert,vals,validatorsHash,_⟩ := x
  obtain ⟨_,_,_,set,_⟩ := valid
  have same := messagesValue BFTValidator.value BFTValidator.ofValue
    (fun e mem => (set e mem).imp (fun v both => ⟨both.1,rfl⟩))
  exact congrArg (fun vals => (prevoteThreshold,pre,cert,vals,validatorsHash,()))
    same

theorem paramsWhole : schema.Whole text := by
  simp [schema,BFTValidator.schema,Schema.Whole,Kind.Whole]

theorem paramsIncreasing : schema.Increasing 0 := by
  simp [schema,BFTValidator.schema,Schema.Increasing,Kind.Increasing]

theorem decodeEncode (dec : decode text data = .ok p) (enc : encode text p = .ok data') : decode text data' = .ok p := by
  unfold decode at dec
  split at dec
  · rename_i x read
    cases dec
    obtain ⟨⟨x',last⟩,fromReader,same⟩ := bindOk read
    cases same
    have valid := Schema.decodeValid paramsWhole fromReader
    unfold encode at enc
    rw [paramsValue valid] at enc
    split at enc
    · rename_i put
      split at enc
      · rename_i short
        cases enc
        unfold decode
        rw [Schema.decodeEncoded (by decide) paramsIncreasing valid put short]
      · cases enc
    · cases enc
  · cases dec

theorem fourBytes (length : key.length = 4) : key = fromUint32 (toUint32 key) ∧ toUint32 key < 4294967296 := by
  match key with
  | [a,b,c,d] =>
    have ha := a.toNat_lt
    have hb := b.toNat_lt
    have hc := c.toNat_lt
    have hd := d.toNat_lt
    rw [fromUint32Bytes]
    simp only [toUint32,foldl_cons,foldl_nil,cons.injEq,and_true,← UInt8.toNat_inj,UInt8.toNat_ofNat']
    omega

theorem fromUint32Le (small : n < 4294967296) (small' : m < 4294967296) : fromUint32 n ≤ fromUint32 m ↔ n ≤ m := by
  constructor
  · intro within
    by_contra above
    exact absurd within (not_le.mpr (fromUint32Ordered small (Nat.lt_of_not_le above)))
  · intro within
    rcases lt_or_eq_of_le within with smaller | rfl
    · exact (fromUint32Ordered small' smaller).le
    · exact le_rfl

theorem keyLe (length : key.length = 4) (small : height < 4294967296) : key ≤ fromUint32 height ↔ toUint32 key ≤ height := by
  obtain ⟨same,range⟩ := fourBytes length
  rw [← fromUint32Le range small,← same]

theorem findCongr {α : Type} {p q} {xs : List α} (same : ∀ x ∈ xs, p x = q x) : xs.find? p = xs.find? q := by
  rw [← head?_filter,← head?_filter,filter_congr same]

theorem findBetween {K V : Type} [LinearOrder K] {entries : List (K × V)} (sorted : entries.Pairwise (fun a b => b.1 < a.1))
    (low high : K) : entries.find? (fun e => low ≤ e.1 && e.1 ≤ high) = (entries.find? (·.1 ≤ high)).filter (fun e => low ≤ e.1) := by
  induction entries with
  | nil => rfl
  | cons e rest ih =>
    obtain ⟨below,tail⟩ := pairwise_cons.mp sorted
    by_cases under : e.1 ≤ high
    · by_cases above : low ≤ e.1
      · simp [under,above,Option.filter]
      have absent : rest.find? (fun e => low ≤ e.1 && e.1 ≤ high) = none := by
        refine find?_eq_none.mpr (fun e' mem => ?_)
        have gone : ¬ low ≤ e'.1 := fun within => above (within.trans (below e' mem).le)
        simp [gone]
      simp [under,above,absent,Option.filter]
    · simp [under,ih tail]

def floorEntry (paramsStore : OrderedMap Bytes Bytes) (height : Nat) : Option (Bytes × Bytes) :=
  paramsStore.entries.reverse.find? (fun e => e.1 ≤ fromUint32 height)

section
variable {paramsStore : OrderedMap Bytes Bytes} (keys : ∀ e ∈ paramsStore.entries, e.1.length = 4)
include keys

theorem getBFTParamsOk : getBFTParams text paramsStore height = .ok p ↔
    ∃ e, floorEntry paramsStore height = some e ∧ decode text e.2 = .ok p := by
  have every : paramsStore.between (fromUint32 0) (fromUint32 height) =
      paramsStore.entries.filter (·.1 ≤ fromUint32 height) := by
    refine filter_congr (fun e mem => ?_)
    have least : fromUint32 0 ≤ e.1 := by
      obtain ⟨same,range⟩ := fourBytes (keys e mem)
      rw [same]
      exact (fromUint32Le (by decide) range).mpr (zero_le _)
    simp [least]
  have one : iterateRange paramsStore (fromUint32 0) (fromUint32 height) 1 true = (floorEntry paramsStore height).toList := by
    rw [floorEntry,← head?_filter,filter_reverse,← every,← take_one]
    rfl
  unfold getBFTParams
  rw [one]
  cases floorEntry paramsStore height <;> simp

end

section
variable {paramsStore : OrderedMap Bytes Bytes} (keys : ∀ e ∈ paramsStore.entries, e.1.length = 4)
include keys

theorem listedFloor {data} {start stop : Nat} {kv} (ok : BftParamsCache.listed text ⟨paramsStore,data⟩ start stop = .ok kv)
    (small : stop < 4294967296) {height} (low : start ≤ height) (high : height ≤ stop) {e}
    (hit : kv.find? (fun element => toUint32 element.1 ≤ height) = some e) {p} (dec : decode text e.2 = .ok p) :
    getBFTParams text paramsStore height = .ok p := by
  have sorted := pairwise_reverse.mpr paramsStore.sorted
  have scanned : (iterateRange paramsStore (fromUint32 start) (fromUint32 stop) (-1) true).find?
      (fun element => toUint32 element.1 ≤ height) =
        (floorEntry paramsStore height).filter (fun e => fromUint32 start ≤ e.1) := by
    show (paramsStore.between (fromUint32 start) (fromUint32 stop)).reverse.find? _ = _
    rw [between,← filter_reverse,find?_filter,floorEntry,← findBetween sorted]
    refine findCongr (fun e mem => ?_)
    have four := keys e (mem_reverse.mp mem)
    have upper := keyLe four small
    have here := keyLe four (show height < 4294967296 by omega)
    rw [Bool.eq_iff_iff]
    simp only [upper,here,Bool.and_eq_true,decide_eq_true_eq]
    exact ⟨fun both => ⟨both.1.1,both.2⟩,fun both => ⟨⟨both.1,both.2.trans high⟩,both.2⟩⟩
  obtain ⟨lowest,rfl,again⟩ : ∃ lowest, kv = iterateRange paramsStore (fromUint32 start) (fromUint32 stop) (-1) true ++ lowest ∧
      ∀ e ∈ lowest, ∃ q, getBFTParams text paramsStore start = .ok q ∧ encode text q = .ok e.2 := by
    unfold BftParamsCache.listed at ok
    split at ok
    · obtain ⟨q,read,ok⟩ := bindOk ok
      obtain ⟨put,enc,ok⟩ := bindOk ok
      cases ok
      refine ⟨_,rfl,fun e mem => ⟨q,read,?_⟩⟩
      rw [mem_singleton.mp mem]
      exact enc
    · cases ok
      exact ⟨[],(append_nil _).symm,by simp⟩
  rw [find?_append,scanned] at hit
  cases first : (floorEntry paramsStore height).filter (fun e => fromUint32 start ≤ e.1) with
  | some e' =>
    rw [first] at hit
    cases hit
    exact (getBFTParamsOk keys).mpr ⟨e,(filter_eq_some_iff.mp first).1,dec⟩
  | none =>
    rw [first,none_or] at hit
    obtain ⟨q,read,enc⟩ := again e (mem_of_find?_eq_some hit)
    obtain ⟨e',floor,original⟩ := (getBFTParamsOk keys).mp read
    have same : p = q := by
      have reread := decodeEncode original enc
      rw [dec] at reread
      exact Except.ok.inj reread
    have moved : floorEntry paramsStore height = floorEntry paramsStore start := by
      rw [floorEntry,← findBetween sorted] at first
      refine findCongr (fun e mem => ?_)
      have gap := find?_eq_none.mp first e mem
      have four := keys e (mem_reverse.mp mem)
      have here := keyLe four (show height < 4294967296 by omega)
      have there := keyLe four (show start < 4294967296 by omega)
      rw [Bool.eq_iff_iff]
      simp only [Bool.and_eq_true,decide_eq_true_eq,not_and,here,there] at gap ⊢
      refine ⟨fun within => ?_,fun within => within.trans low⟩
      by_contra above
      have smaller := le_of_lt (lt_of_not_ge (fun le' => above (there.mp le')))
      exact gap smaller within
    exact (getBFTParamsOk keys).mpr ⟨e',moved.trans floor,same ▸ original⟩

end

def Consistent (text : Normalizer) (c : BftParamsCache) : Prop :=
  ∀ height p, c.data.lookup height = some p → getBFTParams text c.paramsStore height = .ok p

theorem consistentCons (agree : Consistent text ⟨paramsStore,data⟩) (own : getBFTParams text paramsStore height = .ok p) :
    Consistent text ⟨paramsStore,(height,p)::data⟩ := by
  intro h q looked
  rw [lookup_cons] at looked
  split at looked
  · rename_i same
    cases looked
    rw [show h = height by simpa using same]
    exact own
  · exact agree h q looked

theorem fillConsistent {paramsStore kv} {heights : List Nat}
    (floor : ∀ h ∈ heights, ∀ e, kv.find? (fun element => toUint32 element.1 ≤ h) = some e → ∀ p,
      decode text e.2 = .ok p → getBFTParams text paramsStore h = .ok p) {data filled} (agree : Consistent text ⟨paramsStore,data⟩)
    (folded : heights.foldlM (BftParamsCache.cacheHeight text kv) data = .ok filled) : Consistent text ⟨paramsStore,filled⟩ := by
  induction heights generalizing data with
  | nil => cases folded; exact agree
  | cons h rest ih =>
    obtain ⟨next,added,folded⟩ := bindOk folded
    unfold BftParamsCache.cacheHeight at added
    split at added
    · cases added
    rename_i e hit
    obtain ⟨p,dec,added⟩ := bindOk added
    cases added
    have own := floor h (by simp) e hit p dec
    exact ih (fun h' mem => floor h' (by simp [mem])) (consistentCons agree own) folded

theorem cacheConsistent {c c' start stop} (keys : ∀ e ∈ c.paramsStore.entries, e.1.length = 4) (agree : Consistent text c)
    (ok : c.cache text start stop = .ok c') : c'.paramsStore = c.paramsStore ∧ Consistent text c' := by
  obtain ⟨kv,scanned,ok⟩ := bindOk ok
  split at ok
  · cases ok
  rename_i small
  obtain ⟨filled,folded,ok⟩ := bindOk ok
  cases ok
  refine ⟨rfl,fillConsistent (fun h mem e hit p dec => ?_) agree folded⟩
  obtain ⟨low,high⟩ := mem_range'_1.mp mem
  exact listedFloor keys scanned (by unfold maxUint32 at small; omega) low (by omega) hit dec

theorem getParametersDirect (agree : Consistent text c) (height : Nat) :
    (c.getParameters text height).1 = getBFTParams text c.paramsStore height ∧
      (c.getParameters text height).2.paramsStore = c.paramsStore ∧ Consistent text (c.getParameters text height).2 := by
  unfold BftParamsCache.getParameters
  split
  · rename_i cached looked
    exact ⟨(agree height cached looked).symm,rfl,agree⟩
  split
  · rename_i failed
    exact ⟨failed.symm,rfl,agree⟩
  · rename_i params read
    exact ⟨read.symm,rfl,consistentCons agree read⟩

theorem getAllDirect (agree : Consistent text c) (heights : List Nat) :
    c.getAll text heights = heights.map (getBFTParams text c.paramsStore) := by
  induction heights generalizing c with
  | nil => rfl
  | cons h rest ih =>
    obtain ⟨answer,store,kept⟩ := getParametersDirect agree h
    rw [BftParamsCache.getAll,map_cons,answer,ih kept,store]

theorem cacheEqualsLookup (text : Normalizer) (paramsStore : OrderedMap Bytes Bytes)
    (keys : ∀ key value, paramsStore.get key = some value → key.length = 4) (start stop : Nat) (c : BftParamsCache)
    (cached : (newBFTParamsCache paramsStore).cache text start stop = .ok c) (heights : List Nat) :
    c.getAll text heights = heights.map (getBFTParams text paramsStore) := by
  have entries : ∀ e ∈ paramsStore.entries, e.1.length = 4 := fun e member => keys e.1 e.2 ((memIffGet ..).mp member)
  have empty : Consistent text (newBFTParamsCache paramsStore) := fun height p looked => by cases looked
  obtain ⟨store,consistent⟩ := cacheConsistent entries empty cached
  rw [getAllDirect consistent,store]
  rfl

def sampleParams (weight : Nat) : BFTParams := ⟨2,2,2,[⟨[1],weight,[7]⟩],[8]⟩

def sampleEncoded (weight : Nat) : Bytes := (BFTParams.schema.encode asciiText (sampleParams weight).value).getD []

def sampleParamsStore : OrderedMap Bytes Bytes :=
  (OrderedMap.empty.set (fromUint32 5) (sampleEncoded 1)).set (fromUint32 9) (sampleEncoded 2)

theorem cacheEqualsLookupSample : ∃ c, (newBFTParamsCache sampleParamsStore).cache asciiText 7 10 = .ok c ∧
    c.getAll asciiText [8, 9, 300, 2] = [.ok (sampleParams 1), .ok (sampleParams 2), .ok (sampleParams 2),
      .error .bftParamsNotFound] := by
  have keys : ∀ e ∈ sampleParamsStore.entries, e.1.length = 4 := by decide
  have fills : ((newBFTParamsCache sampleParamsStore).cache asciiText 7 10).toOption.isSome = true := by decide +kernel
  have direct : [8,9,300,2].map (getBFTParams asciiText sampleParamsStore) =
    [.ok (sampleParams 1),.ok (sampleParams 2),.ok (sampleParams 2),.error .bftParamsNotFound] := by decide +kernel
  cases cached : (newBFTParamsCache sampleParamsStore).cache asciiText 7 10 with
  | error e => rw [cached] at fills; cases fills
  | ok c =>
    have answers := cacheEqualsLookup asciiText sampleParamsStore
      (fun key value held => keys (key, value) ((memIffGet ..).mpr held)) 7 10 c cached [8,9,300,2]
    exact ⟨c,rfl,answers.trans direct⟩

/-- The store holds the encodings of the table, under the heights as four bytes. -/
structure Holds (text : Normalizer) (paramsStore : OrderedMap Bytes Bytes) (table : OrderedMap Nat BFTParams) : Prop where
  heights : ∀ e ∈ table.entries, e.1 < 4294967296
  entries : paramsStore.entries.map (fun e => (e.1, decode text e.2)) = table.entries.map (fun e => (fromUint32 e.1, .ok e.2))

theorem inForceFind {table : OrderedMap Nat BFTParams} : InForce (Diffdb.Database.new table) height p ↔
    ∃ e, table.entries.reverse.find? (·.1 ≤ height) = some e ∧ e.2 = p := by
  cases hit : table.entries.reverse.find? (·.1 ≤ height) with
  | none =>
    refine iff_of_false ?_ (by simp)
    rintro ⟨k,floor⟩
    have mem := (memIffGet table k p).mpr (Diffdb.Database.newView table k ▸ floor.held)
    simpa [floor.high] using find?_eq_none.mp hit _ (mem_reverse.mpr mem)
  | some e =>
    obtain ⟨within,before,after,split,passed⟩ := find?_eq_some_iff_append.mp hit
    have sorted := pairwise_reverse.mpr table.sorted
    have listed := fun k q => (memIffGet table k q).symm.trans mem_reverse.symm
    rw [split] at sorted listed
    have lower := (pairwise_cons.mp (pairwise_append.mp sorted).2.1).1
    have held := (listed e.1 e.2).mpr (mem_append_right _ (.head _))
    have floor : InForce (Diffdb.Database.new table) height e.2 := by
      refine ⟨e.1,held,zero_le _,by simpa using within,fun k q seen _ high => ?_⟩
      rcases mem_append.mp ((listed k q).mp seen) with early | late
      · simpa [high] using passed _ early
      · rcases mem_cons.mp late with same | later
        · exact (congrArg Prod.fst same).le
        · exact (lower _ later).le
    exact ⟨fun own => ⟨e,rfl,inForceUnique floor own⟩,fun ⟨_,same,own⟩ => by cases same; exact own ▸ floor⟩

theorem lookupRefines (holds : Holds text paramsStore table) (small : height < 4294967296) (p : BFTParams) :
    getBFTParams text paramsStore height = .ok p ↔ Liskbft.getBFTParams (Diffdb.Database.new table) height = .ok p := by
  have keys : ∀ e ∈ paramsStore.entries, e.1.length = 4 := by
    intro e mem
    obtain ⟨e',_,same⟩ := mem_map.mp (holds.entries ▸ mem_map_of_mem mem)
    rw [← (Prod.ext_iff.mp same).1]
    rfl
  have found : (floorEntry paramsStore height).map (decode text ·.2) =
      (table.entries.reverse.find? (·.1 ≤ height)).map (.ok ·.2) := by
    rw [← findCongr (fun e mem => decide_eq_decide.mpr (fromUint32Le (holds.heights e (mem_reverse.mp mem)) small))]
    have same := congrArg (fun es => (es.reverse.find? (·.1 ≤ fromUint32 height)).map Prod.snd) holds.entries
    simpa only [← map_reverse,find?_map,Option.map_map,Function.comp_def,floorEntry] using same
  rw [getBFTParamsOk keys,getBFTParamsInForce (settledNew table 0) (zero_le _),inForceFind]
  refine map_eq_some_iff.symm.trans ?_
  rw [found,map_eq_some_iff]
  simp only [Except.ok.injEq]

def sampleTable : OrderedMap Nat BFTParams := (OrderedMap.empty.set 5 (sampleParams 1)).set 9 (sampleParams 2)

theorem lookupRefinesSample : getBFTParams asciiText sampleParamsStore 8 = .ok (sampleParams 1) ↔
    Liskbft.getBFTParams (Diffdb.Database.new sampleTable) 8 = .ok (sampleParams 1) :=
  lookupRefines ⟨by decide +kernel,by decide +kernel⟩ (by decide) _

end Encoded
end LiskEngine.Liskbft
