import LiskEngine.Blockchain
import LiskEngine.CodecRoundTrip

/-! The generated codecs of transactions and blocks, and the constructors that decode them
and derive their IDs. -/
namespace LiskEngine
open Codec List Option Schema Except

section
variable (text : Normalizer)

def AggregateCommit.schema : Schema := .cons 1 .uint32 (.cons 2 .bytes (.cons 3 .bytes .nil))

def AggregateCommit.value (c : AggregateCommit) : AggregateCommit.schema.Value :=
  (c.height, c.aggregationBits, c.certificateSignature, ())

def AggregateCommit.ofValue : AggregateCommit.schema.Value → AggregateCommit
  | (height, aggregationBits, certificateSignature, _) => ⟨height,aggregationBits,certificateSignature⟩

def BlockHeader.schema : Schema :=
  .cons 1 .uint32 (.cons 2 .uint32 (.cons 3 .uint32 (.cons 4 .bytes (.cons 5 .bytes (.cons 6 .bytes (.cons 7 .bytes
    (.cons 8 .bytes (.cons 9 .bytes (.cons 10 .uint32 (.cons 11 .uint32 (.cons 12 .bool (.cons 13 .bytes
      (.cons 14 (.message AggregateCommit.schema) (.cons 15 .bytes .nil))))))))))))))

def BlockHeader.value (h : BlockHeader) : BlockHeader.schema.Value :=
  (h.version, h.timestamp, h.height, h.previousBlockID, h.generatorAddress, h.transactionRoot, h.assetRoot,
    h.eventRoot, h.stateRoot, h.maxHeightPrevoted, h.maxHeightGenerated, h.impliesMaxPrevotes, h.validatorsHash,
    some h.aggregateCommit.value, h.signature, ())

/-- A decoded header never has a nil aggregate commit: an absent one is read as the zero value. -/
def BlockHeader.ofValue : BlockHeader.schema.Value → BlockHeader
  | (version, timestamp, height, previousBlockID, generatorAddress, transactionRoot, assetRoot, eventRoot, stateRoot,
      maxHeightPrevoted, maxHeightGenerated, impliesMaxPrevotes, validatorsHash, aggregateCommit, signature, _) =>
    ⟨[],version,timestamp,height,previousBlockID,generatorAddress,transactionRoot,assetRoot,eventRoot,stateRoot,
      maxHeightPrevoted,maxHeightGenerated,impliesMaxPrevotes,validatorsHash,
      AggregateCommit.ofValue (aggregateCommit.getD AggregateCommit.schema.zero),signature⟩

def BlockHeader.encode (h : BlockHeader) : Option Bytes := BlockHeader.schema.encode text h.value

namespace Blockchain

def Transaction.schema : Schema :=
  .cons 1 .string (.cons 2 .string (.cons 3 .uint64 (.cons 4 .uint64 (.cons 5 .bytes (.cons 6 .bytes
    (.cons 7 .bytesArray .nil))))))

def Transaction.value (t : Transaction) : Transaction.schema.Value :=
  (t.module, t.command, t.nonce, t.fee, t.senderPublicKey, t.params, t.signatures, ())

def Transaction.ofValue : Transaction.schema.Value → Transaction
  | (module, command, nonce, fee, senderPublicKey, params, signatures, _) =>
    ⟨[],module,command,nonce,fee,senderPublicKey,params,signatures⟩

def Transaction.encode (t : Transaction) : Option Bytes := Transaction.schema.encode text t.value

def BlockAsset.schema : Schema := .cons 1 .string (.cons 2 .bytes .nil)

def BlockAsset.value (a : BlockAsset) : BlockAsset.schema.Value := (a.module, a.data, ())

def BlockAsset.ofValue : BlockAsset.schema.Value → BlockAsset
  | (module, data, _) => ⟨module,data⟩

def BlockAsset.encode (a : BlockAsset) : Option Bytes := BlockAsset.schema.encode text a.value

def RawBlock.schema : Schema := .cons 1 .bytes (.cons 2 .bytesArray (.cons 3 .bytesArray .nil))

def Block.schema : Schema :=
  .cons 1 (.message BlockHeader.schema) (.cons 2 (.messageArray Transaction.schema)
    (.cons 3 (.messageArray BlockAsset.schema) .nil))

def Block.value (b : Block) : Block.schema.Value :=
  (some b.header.value, b.transactions.map (fun t => some t.value), b.assets.map (fun a => some a.value), ())

def Block.encode (b : Block) : Option Bytes := Block.schema.encode text b.value

variable (sha : Bytes → Bytes)

/-- The panic of an encoding that cannot be written. -/
def encodedOr (encoded : Option Bytes) : Except CodecError Bytes :=
  match encoded with
  | none => .error .indexOutOfRange
  | some data => .ok data

def newTransaction (value : Bytes) : Except CodecError Transaction := do
  let decoded ← Transaction.schema.decodeStrict text value
  let tx := Transaction.ofValue decoded
  let txBytes ← encodedOr (tx.encode text)
  .ok {tx with id := sha txBytes}

def newBlockHeader (value : Bytes) : Except CodecError BlockHeader := do
  let decoded ← BlockHeader.schema.decode text value
  let header := BlockHeader.ofValue decoded
  let headerBytes ← encodedOr (header.encode text)
  .ok {header with id := sha headerBytes}

def newBlockAsset (val : Bytes) : Except CodecError BlockAsset := do
  let decoded ← BlockAsset.schema.decodeStrict text val
  .ok (BlockAsset.ofValue decoded)

def newBlock (val : Bytes) : Except CodecError Block := do
  let (rawHeader, rawTransactions, rawAssets, _) ← RawBlock.schema.decodeStrict text val
  let header ← newBlockHeader text sha rawHeader
  let assets ← rawAssets.mapM (newBlockAsset text)
  let txs ← rawTransactions.mapM (newTransaction text sha)
  .ok ⟨header,txs,assets⟩

variable {text sha}

theorem transactionIncreasing : Transaction.schema.Increasing 0 := by
  simp [Transaction.schema,Schema.Increasing,Kind.Increasing]

theorem headerIncreasing : BlockHeader.schema.Increasing 0 := by
  simp [BlockHeader.schema,AggregateCommit.schema,Schema.Increasing,Kind.Increasing]

theorem assetIncreasing : BlockAsset.schema.Increasing 0 := by
  simp [BlockAsset.schema,Schema.Increasing,Kind.Increasing]

theorem rawIncreasing : RawBlock.schema.Increasing 0 := by
  simp [RawBlock.schema,Schema.Increasing,Kind.Increasing]

theorem transactionRead {t : Transaction} {data} (valid : Transaction.schema.Valid text t.value)
    (enc : t.encode text = some data) (short : data.length < 9223372036854775808) :
    newTransaction text sha data = .ok {t with id := sha data} := by
  have dec := decodeStrictEncoded (by decide) transactionIncreasing valid enc short
  have same : (Transaction.ofValue t.value).encode text = some data := enc
  simp only [newTransaction,dec,same,bind,Except.bind,encodedOr]
  rfl

theorem newTransactionOk (ok : newTransaction text sha value = .ok t) : t.encode text = some value ∧ t.id = sha value := by
  obtain ⟨dec,strict,rest⟩ := bindOk ok
  have canonical := decodeStrictCanonical (by decide) strict
  have same : (Transaction.ofValue dec).encode text = some value := canonical
  simp only [same,bind,bind,encodedOr] at rest
  cases rest
  exact ⟨canonical,rfl⟩

theorem transactionCanonical {value : Bytes} {t : Transaction} (ok : newTransaction text sha value = .ok t) :
    t.encode text = some value ∧ t.id = sha value ∧ ∀ other, newTransaction text sha other = .ok t → other = value := by
  obtain ⟨encoded,id⟩ := newTransactionOk ok
  refine ⟨encoded,id,fun other same => ?_⟩
  exact some.inj ((newTransactionOk same).1.symm.trans encoded)

def asciiText : Normalizer := .plain

def sampleTransaction : Transaction := ⟨[],"token","transfer",7,300,[1,2],[],[[3],[4,5]]⟩

def sampleTransactionBytes : Bytes :=
  [10,5,116,111,107,101,110,18,8,116,114,97,110,115,102,101,114,24,7,32,172,2,42,2,1,2,50,0,
    58,1,3,58,2,4,5]

theorem sampleTransactionEncoded : sampleTransaction.encode asciiText = some sampleTransactionBytes := by decide +kernel

theorem sampleTransactionValid : Transaction.schema.Valid asciiText sampleTransaction.value := by
  simp [Transaction.schema,Schema.Valid,Kind.Valid,Transaction.value,sampleTransaction,asciiText,Normalizer.plain]

theorem sampleTransactionRead :
    newTransaction asciiText id sampleTransactionBytes = .ok {sampleTransaction with id := sampleTransactionBytes} :=
  transactionRead sampleTransactionValid sampleTransactionEncoded (by decide)

theorem transactionCanonicalSample :
    {sampleTransaction with id := sampleTransactionBytes}.encode asciiText = some sampleTransactionBytes ∧
      ∀ other, newTransaction asciiText id other = .ok {sampleTransaction with id := sampleTransactionBytes} →
        other = sampleTransactionBytes :=
  ⟨(transactionCanonical sampleTransactionRead).1,(transactionCanonical sampleTransactionRead).2.2⟩

theorem headerValid {h : BlockHeader} (version : h.version < 4294967296) (timestamp : h.timestamp < 4294967296)
    (height : h.height < 4294967296) (prevoted : h.maxHeightPrevoted < 4294967296)
    (generated : h.maxHeightGenerated < 4294967296) (commit : h.aggregateCommit.height < 4294967296) :
    BlockHeader.schema.Valid text h.value :=
  ⟨version,timestamp,height,trivial,trivial,trivial,trivial,trivial,trivial,prevoted,generated,trivial,
    trivial,⟨_,rfl,commit,trivial,trivial,trivial⟩,trivial,trivial⟩

theorem headerRead {h : BlockHeader} {data} (valid : BlockHeader.schema.Valid text h.value) (enc : h.encode text = some data)
    (short : data.length < 9223372036854775808) : newBlockHeader text sha data = .ok {h with id := sha data} := by
  have dec := decodeEncoded (by decide) headerIncreasing valid enc short
  have same : (BlockHeader.ofValue h.value).encode text = some data := enc
  simp only [newBlockHeader,dec,same,bind,Except.bind,encodedOr]
  rfl

theorem assetRead (valid : BlockAsset.schema.Valid text a.value) (enc : a.encode text = some data)
    (short : data.length < 9223372036854775808) : newBlockAsset text data = .ok a := by
  have dec := decodeStrictEncoded (by decide) assetIncreasing valid enc short
  simp only [newBlockAsset,dec,bind,bind]
  rfl

theorem messageRaw (ok : (Kind.message fields).write text number (some v) = some written) :
    ∃ d, fields.encode text v = some d ∧ Writer.writeBytes number d = some written := by
  exact bind_eq_some_iff.mp ok

theorem messagesRaw {α : Type} {fields} {value : α → fields.Value} {number vs put}
    (ok : (Kind.messageArray fields).write text number (vs.map (fun v => some (value v))) = some put) :
    ∃ datas, List.Forall₂ (fun v d => fields.encode text (value v) = some d) vs datas ∧
      Writer.writeBytesArray number datas = some put := by
  simp only [Kind.write] at ok
  induction vs generalizing put with
  | nil => exact ⟨[],.nil,ok⟩
  | cons v rest ih =>
    simp only [map_cons,Writer.concat,bind,bind_eq_some_iff] at ok
    obtain ⟨a,head,b,tail,joined⟩ := ok
    cases joined
    obtain ⟨datas,enc,others⟩ := ih tail
    obtain ⟨d,content,field⟩ := bind_eq_some_iff.mp head
    exact ⟨d::datas,.cons content enc,concatCons field others⟩

theorem fieldLength (ok : Writer.field wireType number body = some written) : body.length ≤ written.length := by
  obtain ⟨key,_,rfl⟩ := map_eq_some_iff.mp ok
  simp

theorem bytesFieldLength (ok : Writer.writeBytes number d = some written) : d.length ≤ written.length := by
  have := fieldLength ok
  simp only [Writer.bytes,length_append] at this
  omega

theorem arrayLength (ok : Writer.writeBytesArray number datas = some written) : ∀ d ∈ datas, d.length ≤ written.length := by
  unfold Writer.writeBytesArray at ok
  induction datas generalizing written with
  | nil => simp
  | cons first rest ih =>
    simp only [map_cons,Writer.concat,bind,bind_eq_some_iff] at ok
    obtain ⟨a,head,b,tail,joined⟩ := ok
    cases joined
    have len := bytesFieldLength head
    intro d mem
    rw [length_append]
    rcases mem_cons.mp mem with rfl | later
    · omega
    · have := ih tail d later
      omega

structure Block.Sealed (text : Normalizer) (sha : Bytes → Bytes) (b : Block) : Prop where
  header : ∃ data, b.header.encode text = some data ∧ b.header.id = sha data
  transactions : ∀ t ∈ b.transactions, ∃ data, t.encode text = some data ∧ t.id = sha data

theorem elementsRead {α : Type} {encode : α → Option Bytes} {read : Bytes → Except CodecError α} {vs datas}
    (enc : List.Forall₂ (fun v d => encode v = some d) vs datas)
    (reads : ∀ v ∈ vs, ∀ d ∈ datas, encode v = some d → read d = .ok v) : datas.mapM read = .ok vs := by
  refine mapMOk ?_
  induction enc with
  | nil => exact .nil
  | cons head tail ih =>
    refine .cons (reads _ (by simp) _ (by simp) head) (ih (fun v mem d inside => ?_))
    exact reads v (by simp [mem]) d (by simp [inside])

theorem blockRead (valid : Block.schema.Valid text b.value) (sealed' : b.Sealed text sha)
    (enc : b.encode text = some data) (short : data.length < 9223372036854775808) : newBlock text sha data = .ok b := by
  obtain ⟨a,_,head,others,rfl⟩ := encodeInv enc
  obtain ⟨c,_,txs,tail,rfl⟩ := encodeInv others
  obtain ⟨e,last,assets,empty,rfl⟩ := encodeInv tail
  obtain ⟨headerData,headerEncoded,headerField⟩ := messageRaw head
  obtain ⟨txDatas,txEncoded,txField⟩ := messagesRaw txs
  obtain ⟨assetDatas,assetEncoded,assetField⟩ := messagesRaw assets
  simp only [length_append] at short
  have headerShort := bytesFieldLength headerField
  have raw : RawBlock.schema.encode text (headerData,txDatas,assetDatas,()) = some (a ++ (c ++ (e ++ last))) := by
    cases empty
    simp [RawBlock.schema,encode,Kind.write,headerField,txField,assetField]
  have rawRead := decodeStrictEncoded (by decide) rawIncreasing (by simp [RawBlock.schema,Schema.Valid,Kind.Valid])
    raw (by simp only [length_append]; omega)
  obtain ⟨⟨hv,sameHeader,headerValid⟩,txValid,assetValid,_⟩ := valid
  cases sameHeader
  have headerDone : newBlockHeader text sha headerData = .ok b.header := by
    obtain ⟨d,same,id⟩ := sealed'.header
    obtain rfl : headerData = d := some.inj (headerEncoded.symm.trans same)
    rw [headerRead headerValid headerEncoded (by omega),← id]
  have txDone : txDatas.mapM (newTransaction text sha) = .ok b.transactions := by
    refine elementsRead txEncoded (fun t mem d inside same => ?_)
    obtain ⟨v,someValue,inner⟩ := txValid (some t.value) (mem_map_of_mem mem)
    cases someValue
    obtain ⟨d',sealedAs,id⟩ := sealed'.transactions t mem
    obtain rfl : d = d' := some.inj (same.symm.trans sealedAs)
    have len := arrayLength txField d inside
    rw [transactionRead inner same (by omega),← id]
  have assetDone : assetDatas.mapM (newBlockAsset text) = .ok b.assets := by
    refine elementsRead assetEncoded (fun asset mem d inside same => ?_)
    obtain ⟨v,someValue,inner⟩ := assetValid (some asset.value) (mem_map_of_mem mem)
    cases someValue
    have len := arrayLength assetField d inside
    exact assetRead inner same (by omega)
  simp only [newBlock,rawRead,headerDone,assetDone,txDone,bind,Except.bind]

variable (text sha) in
theorem codecRoundTrip :
    (∀ (fields : Schema) (x : fields.Value), fields.Increasing 0 → (∀ number ∈ fields.numbers, number < 2 ^ 32) →
      fields.Valid text x → ∃ data, fields.encode text x = some data ∧ (data.length < 2 ^ 63 →
        fields.decodeStrict text data = .ok x ∧ fields.decode text data = .ok x)) ∧
    (∀ b : Block, Block.schema.Valid text b.value → b.Sealed text sha → ∃ data, b.encode text = some data ∧
      (data.length < 2 ^ 63 → newBlock text sha data = .ok b)) := by
  constructor
  · intro fields x increasing small valid
    obtain ⟨data,encoded⟩ := encodeSome fields small x
    refine ⟨data,encoded,fun short => ?_⟩
    norm_num at short
    exact ⟨decodeStrictEncoded small increasing valid encoded short, decodeEncoded small increasing valid encoded short⟩
  · intro b valid sealed'
    obtain ⟨data,encoded⟩ := encodeSome Block.schema (by decide) b.value
    refine ⟨data,encoded,fun short => ?_⟩
    norm_num at short
    exact blockRead valid sealed' encoded short

def sampleBlockHeader : BlockHeader :=
  ⟨[],2,100,5,[1],[2],[3],[4],[5],[6],3,4,true,[7],⟨1,[8],[9]⟩,[10]⟩

def sampleHeaderBytes : Bytes :=
  [8,2,16,100,24,5,34,1,1,42,1,2,50,1,3,58,1,4,66,1,5,74,1,6,80,3,88,4,96,1,106,1,7,
    114,8,8,1,18,1,8,26,1,9,122,1,10]

def sampleSealedBlock : Block :=
  ⟨{sampleBlockHeader with id := sampleHeaderBytes},[{sampleTransaction with id := sampleTransactionBytes}],
    [⟨"token",[11]⟩]⟩

theorem sampleBlockSealed : sampleSealedBlock.Sealed asciiText id where
  header := ⟨sampleHeaderBytes,by decide +kernel,rfl⟩
  transactions := by
    intro t mem
    obtain rfl := mem_singleton.mp mem
    exact ⟨sampleTransactionBytes,sampleTransactionEncoded,rfl⟩

theorem sampleBlockValid : Block.schema.Valid asciiText sampleSealedBlock.value := by
  refine ⟨⟨_,rfl,headerValid (by decide) (by decide) (by decide) (by decide) (by decide) (by decide)⟩,
    fun e mem => ?_,fun e mem => ?_,trivial⟩
  · obtain rfl := mem_singleton.mp mem
    exact ⟨_,rfl,sampleTransactionValid⟩
  · obtain rfl := mem_singleton.mp mem
    exact ⟨_,rfl,rfl,trivial,trivial⟩

theorem codecRoundTripSample : ∃ data, sampleSealedBlock.encode asciiText = some data ∧
      (data.length < 2 ^ 63 → newBlock asciiText id data = .ok sampleSealedBlock) :=
  (codecRoundTrip asciiText id).2 sampleSealedBlock sampleBlockValid sampleBlockSealed

theorem wideFieldNumber : (Schema.cons 4294967296 .bool .nil).Increasing 0 ∧
      (Schema.cons 4294967296 .bool .nil).Valid asciiText (true, ()) ∧
      (Schema.cons 4294967296 .bool .nil).encode asciiText (true, ()) = none :=
  ⟨by simp [Schema.Increasing,Kind.Increasing],by simp [Schema.Valid,Kind.Valid],by decide +kernel⟩

end Blockchain
end
end LiskEngine
