import LiskEngine.BlockValidate
import LiskEngine.RmtStore

/-! What the bytes of a block and its ID determine. The envelope, the transactions and the
assets of a block are read strictly, the header is not: a block is written back as it was
read exactly when its header part is the encoding of a header. -/
namespace LiskEngine.Blockchain
open Codec List Option Schema Except
open Smt (CollisionFree)

variable {text : Normalizer} {sha : Bytes → Bytes}

theorem headerWhole : BlockHeader.schema.Whole text := by
  simp [BlockHeader.schema,AggregateCommit.schema,Schema.Whole,Kind.Whole,Schema.Valid,Kind.Valid,zero,Kind.zero]

theorem headerValue {dec} (valid : BlockHeader.schema.Valid text dec) : (BlockHeader.ofValue dec).value = dec := by
  obtain ⟨version,timestamp,height,previousBlockID,generatorAddress,transactionRoot,assetRoot,eventRoot,stateRoot,
    maxHeightPrevoted,maxHeightGenerated,impliesMaxPrevotes,validatorsHash,aggregateCommit,signature,_⟩ := dec
  obtain ⟨_,_,_,_,_,_,_,_,_,_,_,_,_,⟨commit,isSome,_⟩,_⟩ := valid
  subst isSome
  rfl

theorem newBlockHeaderOk {value h} (ok : newBlockHeader text sha value = .ok h) :
    BlockHeader.schema.Valid text h.value ∧ ∃ data, h.encode text = some data ∧ h.id = sha data := by
  obtain ⟨dec,read,rest⟩ := bindOk ok
  obtain ⟨⟨x,last⟩,fromReader,same⟩ := bindOk read
  cases same
  have valid := decodeValid headerWhole fromReader
  obtain ⟨data,enc,same⟩ := bindOk rest
  cases same
  refine ⟨by rw [← headerValue valid] at valid; exact valid,data,?_,rfl⟩
  unfold encodedOr at enc
  split at enc
  · cases enc
  · rename_i hit
    cases enc
    exact hit

theorem newBlockAssetOk {value a} (ok : newBlockAsset text value = .ok a) : a.encode text = some value := by
  obtain ⟨dec,strict,same⟩ := bindOk ok
  cases same
  exact decodeStrictCanonical (by decide) strict

theorem mapMInv {α β ε : Type} {f : α → Except ε β} {xs ys} (ok : xs.mapM f = .ok ys) :
    List.Forall₂ (fun x y => f x = .ok y) xs ys := by
  induction xs generalizing ys with
  | nil =>
    cases ok
    exact .nil
  | cons x rest ih =>
    rw [mapM_cons] at ok
    obtain ⟨y,head,ok⟩ := bindOk ok
    obtain ⟨others,tail,ok⟩ := bindOk ok
    cases ok
    exact .cons head (ih tail)

structure Parts (text : Normalizer) (sha : Bytes → Bytes) (val : Bytes) (b : Block) (header : Bytes)
    (transactions assets : List Bytes) : Prop where
  strict : RawBlock.schema.decodeStrict text val = .ok (header, transactions, assets, ())
  readHeader : newBlockHeader text sha header = .ok b.header
  readTransactions : List.Forall₂ (fun data t => newTransaction text sha data = .ok t) transactions b.transactions
  readAssets : List.Forall₂ (fun data a => newBlockAsset text data = .ok a) assets b.assets

theorem newBlockOk {val b} (ok : newBlock text sha val = .ok b) :
    ∃ header transactions assets, Parts text sha val b header transactions assets := by
  obtain ⟨⟨rawHeader,rawTransactions,rawAssets,_⟩,strict,ok⟩ := bindOk ok
  obtain ⟨header,readHeader,ok⟩ := bindOk ok
  obtain ⟨assets,readAssets,ok⟩ := bindOk ok
  obtain ⟨txs,readTransactions,ok⟩ := bindOk ok
  cases ok
  exact ⟨rawHeader,rawTransactions,rawAssets,strict,readHeader,mapMInv readTransactions,mapMInv readAssets⟩

theorem Parts.transactionsEncoded {val header txs assets b} (parts : Parts text sha val b header txs assets) :
    List.Forall₂ (fun t data => t.encode text = some data) b.transactions txs :=
  (parts.readTransactions.imp (fun _ _ ok => (newTransactionOk ok).1)).flip

theorem Parts.assetsEncoded {val header txs assets b} (parts : Parts text sha val b header txs assets) :
    List.Forall₂ (fun a data => a.encode text = some data) b.assets assets :=
  (parts.readAssets.imp (fun _ _ ok => newBlockAssetOk ok)).flip

theorem messagesEnvelope {α : Type} {fields} {value : α → fields.Value} {number vs datas}
    (enc : List.Forall₂ (fun v d => fields.encode text (value v) = some d) vs datas) :
    (Kind.messageArray fields).write text number (vs.map (fun v => some (value v))) = Writer.writeBytesArray number datas := by
  simp only [Kind.write,Writer.writeBytesArray]
  induction enc with
  | nil => rfl
  | cons head tail ih =>
    rw [map_cons,map_cons,map_cons,Writer.concat,Writer.concat,ih,map_some,head]
    rfl

theorem blockEnvelope {b : Block} {header : Bytes} {transactions assets} (head : b.header.encode text = some header)
    (txs : List.Forall₂ (fun t data => t.encode text = some data) b.transactions transactions)
    (others : List.Forall₂ (fun a data => a.encode text = some data) b.assets assets) :
    b.encode text = RawBlock.schema.encode text (header,transactions,assets,()) := by
  have first : (Kind.message BlockHeader.schema).write text 1 (some b.header.value) = Writer.writeBytes 1 header := by
    have same : BlockHeader.schema.encode text b.header.value = some header := head
    simp only [Kind.write,map_some,Writer.writeEncodable,same,bind_some]
  have second : (Kind.messageArray Transaction.schema).write text 2 (b.transactions.map (fun t => some t.value)) = _ :=
    messagesEnvelope txs
  have third : (Kind.messageArray BlockAsset.schema).write text 3 (b.assets.map (fun a => some a.value)) = _ :=
    messagesEnvelope others
  simp only [Block.encode,Block.schema,Block.value,RawBlock.schema,encode]
  rw [first,second,third]
  simp only [Kind.write]

def HeaderWritten (text : Normalizer) (val : Bytes) : Prop :=
  ∃ (header : Bytes) (rest : List Bytes × List Bytes × Unit) (h : BlockHeader),
    RawBlock.schema.decodeStrict text val = .ok (header, rest) ∧
    BlockHeader.schema.Valid text h.value ∧ h.encode text = some header

theorem envelopeHeaderLength {header val rest} (enc : RawBlock.schema.encode text (header,rest) = some val) :
    header.length ≤ val.length := by
  obtain ⟨first,others,field,_,rfl⟩ := encodeInv enc
  have := bytesFieldLength field
  rw [length_append]
  omega

theorem blockCanonicalIff {val : Bytes} {b : Block} (short : val.length < 2 ^ 63) (ok : newBlock text sha val = .ok b) :
    b.encode text = some val ↔ HeaderWritten text val := by
  obtain ⟨header,transactions,assets,parts⟩ := newBlockOk ok
  have envelope := decodeStrictCanonical (by decide) parts.strict
  obtain ⟨valid,data,encoded,id⟩ := newBlockHeaderOk parts.readHeader
  have written := blockEnvelope encoded parts.transactionsEncoded parts.assetsEncoded
  norm_num at short
  rw [written]
  constructor
  · intro same
    have read := decodeStrictEncoded (by decide) rawIncreasing (by simp [RawBlock.schema,Schema.Valid,Kind.Valid]) same short
    exact ⟨data,_,b.header,read,valid,encoded⟩
  · rintro ⟨header',rest,h,strict,valid',encoded'⟩
    rw [parts.strict] at strict
    cases strict
    have read : newBlockHeader text sha header = _ := headerRead valid' encoded' (lt_of_le_of_lt (envelopeHeaderLength envelope) short)
    rw [parts.readHeader] at read
    have same : b.header.encode text = some header := by
      rw [Except.ok.inj read]
      exact encoded'
    rw [some.inj (encoded.symm.trans same)]
    exact envelope

def headerOnly : Block := ⟨{sampleBlockHeader with id := sampleHeaderBytes},[],[]⟩

theorem headerOnlyRead : newBlock asciiText id ([10,46] ++ sampleHeaderBytes) = .ok headerOnly := by decide +kernel

theorem blockCanonicalSample : HeaderWritten asciiText ([10, 46] ++ sampleHeaderBytes) ∧
    headerOnly.encode asciiText = some ([10, 46] ++ sampleHeaderBytes) := by
  have envelope : RawBlock.schema.encode asciiText (sampleHeaderBytes, [], [], ()) = some ([10,46] ++ sampleHeaderBytes) := by
    decide +kernel
  have strict := decodeStrictEncoded (by decide) rawIncreasing (by simp [RawBlock.schema,Schema.Valid,Kind.Valid])
    envelope (by decide)
  have written : HeaderWritten asciiText ([10,46] ++ sampleHeaderBytes) :=
    ⟨sampleHeaderBytes,([], [], ()),headerOnly.header,strict,
      headerValid (by decide) (by decide) (by decide) (by decide) (by decide) (by decide),by decide +kernel⟩
  exact ⟨written,(blockCanonicalIff (by decide) headerOnlyRead).mpr written⟩

theorem headerTailIgnored : newBlock asciiText id ([10, 47] ++ sampleHeaderBytes ++ [0]) = .ok headerOnly ∧
    headerOnly.encode asciiText = some ([10, 46] ++ sampleHeaderBytes) ∧
    [10, 46] ++ sampleHeaderBytes ≠ [10, 47] ++ sampleHeaderBytes ++ [0] :=
  ⟨by decide +kernel,by decide +kernel,by decide⟩

def Block.strings (text : Normalizer) (sha : Bytes → Bytes) (b : Block) : List Bytes :=
  [] :: (b.header.encode text).toList ++ b.transactions.filterMap (fun t => t.encode text) ++
    Rmt.treeStrings sha (b.transactions.map (·.id)) ++ Rmt.treeStrings sha (b.assets.filterMap (fun a => a.encode text))

theorem encodedAll {α : Type} {encode} {vs : List α} {datas : List Bytes}
    (enc : List.Forall₂ (fun v data => encode v = some data) vs datas) :
    vs.filterMap encode = datas ∧ vs.mapM encode = some datas := by
  induction enc with
  | nil => exact ⟨rfl,rfl⟩
  | cons head tail ih => exact ⟨by simp [head,ih.1],by simp [mapM_cons,head,ih.2]⟩

theorem readSame {α : Type} {read : Bytes → Except CodecError α} {datas vs vs'}
    (first : List.Forall₂ (fun data v => read data = .ok v) datas vs)
    (second : List.Forall₂ (fun data v => read data = .ok v) datas vs') : vs = vs' := by
  have both := (mapMOk first).symm.trans (mapMOk second)
  exact ok.inj both

theorem headerReread {h data} (valid : BlockHeader.schema.Valid text h.value) (enc : h.encode text = some data)
    (short : data.length < 2^63) (id : h.id = sha data) : newBlockHeader text sha data = .ok h := by
  norm_num at short
  rw [headerRead valid enc short,← id]

theorem idsDetermine {strings} (free : CollisionFree sha strings) {datas datas' txs txs'}
    (read : List.Forall₂ (fun data t => newTransaction text sha data = .ok t) datas txs)
    (read' : List.Forall₂ (fun data t => newTransaction text sha data = .ok t) datas' txs')
    (hashed : ∀ data ∈ datas, data ∈ strings) (hashed' : ∀ data ∈ datas', data ∈ strings)
    (same : txs.map (·.id) = txs'.map (·.id)) : datas = datas' := by
  induction read generalizing datas' txs' with
  | nil =>
    cases read' with
    | nil => rfl
    | cons _ _ => cases same
  | cons head tail ih =>
    cases read' with
    | nil => cases same
    | cons head' tail' =>
      obtain ⟨ids,rest⟩ := cons.inj same
      simp only [(newTransactionOk head).2,(newTransactionOk head').2] at ids
      have first := free _ (hashed _ (.head _)) _ (hashed' _ (.head _)) ids
      have later := ih tail' (fun data mem => hashed data (.tail _ mem))
        (fun data mem => hashed' data (.tail _ mem)) rest
      rw [first,later]

theorem freeDetermines (size : ∀ data, (sha data).length = 32) {val val'} {b b' : Block} (read : newBlock text sha val = .ok b)
    (read' : newBlock text sha val' = .ok b') (valid : b.validate text sha = .ok ()) (valid' : b'.validate text sha = .ok ())
    (short : ∀ data, b.header.encode text = some data → data.length < 2^63) (same : b.header.id = b'.header.id)
    (free : CollisionFree sha (b.strings text sha ++ b'.strings text sha)) : b = b' := by
  obtain ⟨header,transactions,assets,parts⟩ := newBlockOk read
  obtain ⟨header',transactions',assets',parts'⟩ := newBlockOk read'
  obtain ⟨inRange,data,enc,id⟩ := newBlockHeaderOk parts.readHeader
  obtain ⟨inRange',data',enc',id'⟩ := newBlockHeaderOk parts'.readHeader
  have txs := encodedAll parts.transactionsEncoded
  have txs' := encodedAll parts'.transactionsEncoded
  have others := encodedAll parts.assetsEncoded
  have others' := encodedAll parts'.assetsEncoded
  obtain ⟨transactionRoot,assetRoot⟩ := validateOk valid
  obtain ⟨transactionRoot',assetRoot'⟩ := validateOk valid'
  unfold Block.strings at free
  rw [enc,enc',txs.1,txs'.1,others.1,others'.1] at free
  have headers : b.header = b'.header := by
    have bytes : data = data' := free _ (by simp) _ (by simp) (by rw [← id,← id',same])
    subst bytes
    have first := headerReread inRange enc (short data enc) id
    have second := headerReread inRange' enc' (short data enc) id'
    exact ok.inj (first.symm.trans second)
  have sameTransactions : b.transactions = b'.transactions := by
    have roots : Rmt.calculateRoot sha (b.transactions.map (·.id)) = Rmt.calculateRoot sha (b'.transactions.map (·.id)) := by
      rw [← transactionRoot,← transactionRoot',headers]
    have ids := Rmt.rootDetermines size free (by simp) (fun s mem => by simp [mem]) (fun s mem => by simp [mem]) roots
    have datas := idsDetermine free parts.readTransactions parts'.readTransactions (fun d mem => by simp [mem])
      (fun d mem => by simp [mem]) ids
    subst datas
    exact readSame parts.readTransactions parts'.readTransactions
  have sameAssets : b.assets = b'.assets := by
    unfold BlockAssets.getRoot at assetRoot assetRoot'
    rw [others.2] at assetRoot
    rw [others'.2] at assetRoot'
    have roots : Rmt.calculateRoot sha assets = Rmt.calculateRoot sha assets' := by
      rw [some.inj assetRoot,some.inj assetRoot',headers]
    have datas := Rmt.rootDetermines size free (by simp) (fun s mem => by simp [mem]) (fun s mem => by simp [mem]) roots
    subst datas
    exact readSame parts.readAssets parts'.readAssets
  cases b
  cases b'
  simp_all

theorem boundOrCollides {sha strings} {P : Prop} (bound : CollisionFree sha strings → P) :
    P ∨ ∃ x ∈ strings, ∃ y ∈ strings, x ≠ y ∧ sha x = sha y := by
  by_cases free : CollisionFree sha strings
  · exact .inl (bound free)
  unfold CollisionFree at free
  push Not at free
  obtain ⟨x,inX,y,inY,hash,differ⟩ := free
  exact .inr ⟨x,inX,y,inY,differ,hash⟩

theorem idBindsBlock (text : Normalizer) (sha : Bytes → Bytes) (size : ∀ data, (sha data).length = 32) (val val' : Bytes) (b b' : Block)
    (read : newBlock text sha val = .ok b) (read' : newBlock text sha val' = .ok b') (valid : b.validate text sha = .ok ())
    (valid' : b'.validate text sha = .ok ()) (short : ∀ data, b.header.encode text = some data → data.length < 2 ^ 63)
    (same : b.header.id = b'.header.id) : (b.header = b'.header ∧ b.transactions = b'.transactions ∧ b.assets = b'.assets) ∨
      ∃ x ∈ b.strings text sha ++ b'.strings text sha, ∃ y ∈ b.strings text sha ++ b'.strings text sha, x ≠ y ∧ sha x = sha y := by
  refine boundOrCollides (fun free => ?_)
  have equal := freeDetermines size read read' valid valid' short same free
  subst equal
  exact ⟨rfl,rfl,rfl⟩

def flatSha (_ : Bytes) : Bytes := List.replicate 32 9

def boundHeader : BlockHeader :=
  {sampleBlockHeader with
    previousBlockID := List.replicate 32 1, generatorAddress := List.replicate 20 2, signature := List.replicate 64 3
    transactionRoot := flatSha [], assetRoot := flatSha []}

def boundBlock (asset : UInt8) : Block :=
  ⟨{boundHeader with id := flatSha []},[{sampleTransaction with id := flatSha []}],[⟨"a",[asset]⟩]⟩

def boundRaw (asset : UInt8) : Bytes :=
  (RawBlock.schema.encode asciiText ((boundHeader.encode asciiText).getD [], [sampleTransactionBytes], [[10,1,97,18,1,asset]], ())).getD []

theorem idBindsBlockSample : ∃ x ∈ (boundBlock 11).strings asciiText flatSha ++ (boundBlock 12).strings asciiText flatSha,
    ∃ y ∈ (boundBlock 11).strings asciiText flatSha ++ (boundBlock 12).strings asciiText flatSha,
      x ≠ y ∧ flatSha x = flatSha y :=
  (idBindsBlock asciiText flatSha (fun _ => rfl) (boundRaw 11) (boundRaw 12) (boundBlock 11) (boundBlock 12)
    (by decide +kernel) (by decide +kernel) (by decide +kernel) (by decide +kernel)
    (fun data encoded => by
      have short : (((boundBlock 11).header.encode asciiText).getD []).length < 2^63 := by decide +kernel
      rwa [encoded] at short) rfl).resolve_left (by decide)

end LiskEngine.Blockchain
