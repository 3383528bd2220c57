import LiskEngine.ForkChoice
import LiskEngine.Generator

/-! The headers one generator produces, call after call. A header acknowledges the height
of the block forged before it, not the largest height so far, so that two calls after a
switch to a shorter chain contradict the block from before the switch. -/
namespace LiskEngine
open List Option OrderedMap Bool

namespace Generation
open Liskbft Consensus Blockchain Labi Diffdb Contradiction

section
variable {α : Type}

theorem orBftOk (ok : orBft x = .ok a) : x = .ok a := by
  cases x with
  | error e => cases ok
  | ok b => cases ok; rfl

theorem orConsensusOk (ok : orConsensus x = .ok a) : x = .ok a := by
  cases x with
  | error e => cases ok
  | ok b => cases ok; rfl

theorem orExecuteOk (ok : orExecute x = .ok a) : x = .ok a := by
  cases x with
  | error e => cases ok
  | ok b => cases ok; rfl

theorem orElseOk (ok : orElse e x = .ok a) : x = some a := by
  cases x with
  | none => cases ok
  | some b => cases ok; rfl

end

structure Prepared (g : Generator) (s : Situation) (last : BlockHeader) (address : Bytes) (header : BlockHeader)
    (v : BFTVotes) (info : GeneratorInfo) : Prop where
  votes : s.store.getVotes = .ok v
  stored : storedInfo g.text (s.generatorDB.get (prevInfoStore.getKey address)) = .ok info
  version : header.version = blockVersion
  timestamp : header.timestamp = u32 s.headerNow
  height : header.height = u32 (last.height + 1)
  previous : header.previousBlockID = last.id
  generator : header.generatorAddress = address
  prevoted : header.maxHeightPrevoted = v.maxHeightPrevoted
  generated : header.maxHeightGenerated = info.height
  commit : getAggregateCommit g.engine s.store s.commits = .ok header.aggregateCommit

theorem preparedOk (ok : g.initBlockHeader s last (Database.new s.generatorDB) address = .ok (header,db)) :
    ∃ v info, Prepared g s last address header v info ∧ ∃ shown, Shows s.generatorDB shown db ∧
      ∀ key, key ≠ prevInfoStore.getKey address → shown.get key = s.generatorDB.get key := by
  obtain ⟨⟨maxHeightPrevoted,_,_⟩,heights,ok⟩ := bindOk ok
  obtain ⟨v,votes,same⟩ := bindOk (orBftOk heights)
  cases same
  have shows := newShows s.generatorDB
  obtain ⟨info,stored,ok⟩ := bindOk ok
  obtain ⟨enc,_,ok⟩ := bindOk ok
  obtain ⟨commit,com,ok⟩ := bindOk ok
  cases ok
  have hit : storedInfo g.text (s.generatorDB.get (prevInfoStore.getKey address)) = .ok info := by
    rw [← shows.get (prevInfoStore.getKey address)]
    exact stored
  refine ⟨v,info,⟨votes,hit,rfl,rfl,rfl,rfl,rfl,rfl,rfl,orConsensusOk com⟩,_,
    (shows.afterGet _).afterSet _ _,fun key other => ?_⟩
  rw [getSet,if_neg other]

structure Steps (σ : Type) where
  last : BlockHeader
  generators : List Liskbft.Generator
  generator : Liskbft.Generator
  privateKey : Bytes
  header : BlockHeader
  started : σ
  assets : List BlockAsset
  inserted : σ
  store : ConsensusStore
  consensus : Labi.Consensus
  events : List Blockchain.Event
  opened : σ
  selected : List Transaction
  executer : StateExecuter σ
  resp : ExecuteResponse
  closed : σ
  stateRoot : Bytes

def Steps.txs {σ : Type} (t : Steps σ) (g : Generator) : List Transaction :=
  limitTransactionsWithSize g.text g.maxTransactionsSize 0 t.selected

structure Generates {σ : Type} (g : Generator) (app : App σ) (s : Situation) (t : Steps σ) (block : Block) : Prop where
  tip : s.chain.head? = some t.last
  due : g.shouldForge s.syncing t.last s.now = true
  keys : getGeneratorKeys s.store.keys (u32 (t.last.height + 1)) = .ok t.generators
  slot : atTimestamp g.engine t.generators (u32 s.now) = .ok t.generator
  enabled : g.enabledKeys.get t.generator.address = some t.privateKey
  prepared : ∃ v info, Prepared g s t.last t.generator.address t.header v info
  started : app.initStateMachine t.header = some t.started
  inserted : app.insertAssets t.started = (some t.assets, t.inserted)
  voted : g.engine.liskBFT.beforeTransactionsExecute t.header s.store = .ok t.store
  consensus : getABIConsensus t.store t.header = .ok t.consensus
  opened : app.beforeTransactionsExecute t.inserted t.assets t.consensus = (some t.events, t.opened)
  selected : g.selectTransactions app s t.header t.assets ⟨t.opened,t.events⟩ = .ok (t.selected, t.executer)
  closed : app.afterTransactionsExecute t.executer.context t.assets t.consensus (t.txs g) = (some t.resp, t.closed)
  committed : (app.commit t.closed t.last.stateRoot [] true).1 = some t.stateRoot
  sealed : g.sealBlock t.header (t.txs g) t.assets (Event.updateIndex (t.executer.events ++ t.resp.events)) t.stateRoot
    t.privateKey t.store = .ok block

def infoOfHeader (header : BlockHeader) : GeneratorInfo := ⟨header.height,header.maxHeightPrevoted,header.maxHeightGenerated⟩

theorem sealedOk {g : Generator} {header} {txs : List Transaction} {assets events stateRoot privateKey store block}
    (ok : g.sealBlock header txs assets events stateRoot privateKey store = .ok block) :
    ∃ params assetRoot eventRoot id, API.getBFTParameters store (u32 (header.height+1)) = .ok params ∧
      block = ⟨
        {filled header params.validatorsHash (Rmt.calculateRoot g.sha (txs.map (·.id))) assetRoot eventRoot stateRoot with
          id := id
          signature := g.sign g.engine.chainID privateKey
            (filled header params.validatorsHash (Rmt.calculateRoot g.sha (txs.map (·.id))) assetRoot eventRoot stateRoot)},
        txs,BlockAssets.sort assets⟩ := by
  obtain ⟨params,read,ok⟩ := bindOk ok
  obtain ⟨assetRoot,_,ok⟩ := bindOk ok
  obtain ⟨eventRoot,_,ok⟩ := bindOk ok
  obtain ⟨header',signed,ok⟩ := bindOk ok
  cases ok
  obtain ⟨headerBytes,_,rfl⟩ := signed
  exact ⟨params,assetRoot,eventRoot,_,orBftOk read,rfl⟩

theorem generatesOk {σ : Type} {g : Generator} {app : App σ} {s block db} (ok : g.forge app s = .ok (block,db)) :
    (∃ t, Generates g app s t block) ∧ ∃ enc, (infoOfHeader block.header).encode g.text = some enc ∧
        db.get (prevInfoStore.getKey block.header.generatorAddress) = some enc ∧
        ∀ key, key ≠ prevInfoStore.getKey block.header.generatorAddress → db.get key = s.generatorDB.get key := by
  obtain ⟨last,tip,ok⟩ := bindOk ok
  split at ok
  · cases ok
  rename_i due
  obtain ⟨gens,keys,ok⟩ := bindOk ok
  obtain ⟨gen,slot,ok⟩ := bindOk ok
  obtain ⟨privateKey,enabled,ok⟩ := bindOk ok
  obtain ⟨⟨header,overlay⟩,prepared,ok⟩ := bindOk ok
  obtain ⟨v,info,prepared,shown,shows,others⟩ := preparedOk prepared
  obtain ⟨started,start,ok⟩ := bindOk ok
  obtain ⟨assets,inserted,ok⟩ := bindOk ok
  obtain ⟨store,voted,ok⟩ := bindOk ok
  obtain ⟨consensus,read,ok⟩ := bindOk ok
  obtain ⟨events,opened,ok⟩ := bindOk ok
  obtain ⟨⟨sel,executer⟩,select,ok⟩ := bindOk ok
  obtain ⟨resp,closed,ok⟩ := bindOk ok
  obtain ⟨stateRoot,com,ok⟩ := bindOk ok
  obtain ⟨block',sealedOk',ok⟩ := bindOk ok
  obtain ⟨enc,put,ok⟩ := bindOk ok
  cases ok
  have due : g.shouldForge s.syncing last s.now = true := by simpa using due
  have own : block.header.generatorAddress = gen.address := by
    obtain ⟨_,_,_,_,_,same⟩ := sealedOk sealedOk'
    rw [same]
    exact prepared.generator
  have same : applyWrites s.generatorDB (prevInfoStore.set overlay block.header.generatorAddress enc).commit.1 =
      shown.set (prevInfoStore.getKey block.header.generatorAddress) enc :=
    (shows.afterSet (prevInfoStore.getKey block.header.generatorAddress) enc).committed (List.Perm.refl _)
  refine ⟨⟨⟨last,gens,gen,privateKey,header,started,assets,(app.insertAssets started).2,store,consensus,
    events,(app.beforeTransactionsExecute (app.insertAssets started).2 assets consensus).2,sel,executer,resp,
    (app.afterTransactionsExecute executer.context assets consensus
      (limitTransactionsWithSize g.text g.maxTransactionsSize 0 sel)).2,stateRoot⟩,
    ⟨orElseOk tip,due,orBftOk keys,orConsensusOk slot,orElseOk enabled,⟨v,info,prepared⟩,orElseOk start,
      Prod.ext (orElseOk inserted) rfl,orBftOk voted,orExecuteOk read,Prod.ext (orElseOk opened) rfl,select,
      Prod.ext (orElseOk closed) rfl,orElseOk com,sealedOk'⟩⟩,enc,orElseOk put,?_,fun key other => ?_⟩
  · rw [same,getSet,if_pos rfl]
  · rw [same,getSet,if_neg other]
    exact others key (own ▸ other)

structure Produced (g : Generator) (s : Situation) (header : BlockHeader) (last : BlockHeader) (v : BFTVotes)
    (info : GeneratorInfo) : Prop where
  tip : s.chain.head? = some last
  votes : s.store.getVotes = .ok v
  stored : storedInfo g.text (s.generatorDB.get (prevInfoStore.getKey header.generatorAddress)) = .ok info
  height : header.height = u32 (last.height + 1)
  prevoted : header.maxHeightPrevoted = v.maxHeightPrevoted
  generated : header.maxHeightGenerated = info.height

theorem Generates.produced {σ : Type} {g : Generator} {app s} {t : Steps σ} {block} (gen : Generates g app s t block) :
    ∃ v info, Produced g s block.header t.last v info := by
  obtain ⟨v,info,prepared⟩ := gen.prepared
  obtain ⟨_,_,_,_,_,same⟩ := sealedOk gen.sealed
  rw [same]
  refine ⟨v,info,gen.tip,prepared.votes,?_,prepared.height,prepared.prevoted,prepared.generated⟩
  show storedInfo g.text (s.generatorDB.get (prevInfoStore.getKey t.header.generatorAddress)) = .ok info
  rw [prepared.generator]
  exact prepared.stored

def Reached (c : Engine) (genesis : BlockHeader) (allowed : Consensus.Event → Prop) (s : ChainState) : Prop :=
  ∃ events : List Consensus.Event, (∀ e ∈ events, allowed e) ∧
    (genesisState genesis).run c.liskBFT (verifyBlockAccepts c) events = some s

theorem reachedTip (small : genesis.height < maxUint32) (origin : genesis.maxHeightPrevoted ≤ genesis.height)
    (reached : Reached c genesis Event.WeightsFit s) :
    ∃ v tip rest, s.store.getVotes = .ok v ∧ s.blocks = tip::rest ∧ tip.height < maxUint32 ∧ v.maxHeightPrevoted ≤ tip.height ∧
      ∀ b ∈ s.blocks, b.maxHeightPrevoted ≤ v.maxHeightPrevoted ∧ b.height ≤ tip.height := by
  obtain ⟨events,fit,run⟩ := reached
  obtain ⟨P,chain,v,inv⟩ := reachInv (fun _ _ _ => verifyBlockChecks) small fit run
  have low := inv.inv.genesis
  have middle := inv.inv.ordered
  obtain ⟨tip,rest,blocks⟩ : ∃ tip rest, chain ++ [genesis] = tip::rest := by
    cases chain with
    | nil | cons b rest => exact ⟨_,_,rfl⟩
  have height := lastHeight rfl inv.inv.window.consecutive blocks
  have bound := inv.inv.small
  have high := inv.inv.tip
  refine ⟨v,tip,rest,getVotesOk.mpr inv.votes,inv.blocks.trans blocks,by omega,by omega,fun b mem => ?_⟩
  rw [inv.blocks] at mem
  rcases mem_append.mp mem with inside | last
  · have := consecutiveAbove inv.inv.window.consecutive inside
    exact ⟨inv.inv.acknowledged b inside,by omega⟩
  · rw [mem_singleton.mp last]
    exact ⟨by omega,by omega⟩

structure Succeeds (last next : BlockHeader) : Prop where
  same : last.generatorAddress = next.generatorAddress
  generated : next.maxHeightGenerated = last.height
  prevoted : last.maxHeightPrevoted ≤ next.maxHeightPrevoted
  progress : last.height < next.height ∨ last.maxHeightPrevoted < next.maxHeightPrevoted

def Contradicts (x y : BlockHeader) : Prop :=
  areDistinctHeadersContradicting (newBFTBlockHeader x) (newBFTBlockHeader y) = true

instance (x y : BlockHeader) : Decidable (Contradicts x y) := inferInstanceAs (Decidable (_ = true))

structure Later (x y : BlockHeader) : Prop where
  same : x.generatorAddress = y.generatorAddress
  acknowledged : x.height ≤ y.maxHeightGenerated
  prevoted : x.maxHeightPrevoted ≤ y.maxHeightPrevoted
  progress : x.height < y.height ∨ x.maxHeightPrevoted < y.maxHeightPrevoted

theorem Succeeds.later (ok : Succeeds x y) : Later x y :=
  ⟨ok.same,ok.generated.ge,ok.prevoted,ok.progress⟩

theorem Later.trans (first : Later x y) (own : y.maxHeightGenerated ≤ y.height) (second : Later y z) : Later x z where
  same := first.same.trans second.same
  acknowledged := first.acknowledged.trans (own.trans second.acknowledged)
  prevoted := first.prevoted.trans second.prevoted
  progress := by
    have lower := first.prevoted
    have upper := second.prevoted
    rcases first.progress with height | prevoted
    · rcases second.progress with height' | prevoted'
      · exact .inl (height.trans height')
      · exact .inr (by omega)
    · exact .inr (by omega)

theorem Later.consistent (later : Later x y) (own : x.maxHeightGenerated ≤ x.height) : ¬Contradicts x y := by
  obtain ⟨same,acknowledged,prevoted,progress⟩ := later
  unfold Contradicts
  rw [contradictingIff]
  unfold ordered newBFTBlockHeader
  simp only
  split <;> simp_all <;> omega

theorem laterAll (chain : (x::rest).IsChain Succeeds)
    (own : ∀ y ∈ (x::rest).dropLast, y.maxHeightGenerated ≤ y.height) : ∀ y ∈ rest, Later x y := by
  induction rest generalizing x with
  | nil => exact fun y mem => (not_mem_nil mem).elim
  | cons z rest ih =>
    obtain ⟨ok,chain⟩ := isChain_cons_cons.mp chain
    intro y mem
    rcases mem_cons.mp mem with rfl | inside
    · exact ok.later
    have ne : rest ≠ [] := ne_nil_of_mem inside
    have cut : (x::z::rest).dropLast = x::z::rest.dropLast := by
      rw [dropLast_cons_of_ne_nil (by simp),dropLast_cons_of_ne_nil ne]
    have later := ih chain (fun y' mem' => own y' (by
      exact .tail _ mem')) y inside
    exact ok.later.trans (own z (by rw [cut]; simp)) later

theorem consistentOfOwn {headers : List BlockHeader} (chain : headers.IsChain Succeeds)
    (own : ∀ y ∈ headers.dropLast, y.maxHeightGenerated ≤ y.height) : headers.Pairwise (fun x y => ¬Contradicts x y) := by
  induction headers with
  | nil => exact .nil
  | cons x rest ih =>
    have inside : ∀ y ∈ rest.dropLast, y.maxHeightGenerated ≤ y.height := fun y mem => own y (by
      rw [dropLast_cons_of_ne_nil (fun empty => by simp [empty] at mem)]
      exact .tail _ mem)
    refine pairwise_cons.mpr ⟨fun y mem => ?_,ih chain.of_cons inside⟩
    have first : x ∈ (x::rest).dropLast := by
      rw [dropLast_cons_of_ne_nil (ne_nil_of_mem mem)]
      exact .head _
    exact (laterAll chain own y mem).consistent (own x first)

theorem ownOfConsistent (chain : (w::rest).IsChain Succeeds) (first : w.maxHeightGenerated ≤ w.height)
    (agree : (w::rest).Pairwise (fun x y => ¬Contradicts x y)) : ∀ y ∈ (w::rest).dropLast, y.maxHeightGenerated ≤ y.height := by
  induction rest generalizing w with
  | nil => exact fun y mem => (not_mem_nil mem).elim
  | cons y rest ih =>
    obtain ⟨ok,chain⟩ := isChain_cons_cons.mp chain
    obtain ⟨apart,agree⟩ := pairwise_cons.mp agree
    intro x mem
    rcases mem_cons.mp mem with rfl | inside
    · exact first
    cases rest with
    | nil => exact (not_mem_nil inside).elim
    | cons z rest =>
      refine ih chain ?_ agree x inside
      have next := (isChain_cons_cons.mp chain).1
      have separate := apart z (by simp)
      by_contra lower
      have generated := ok.generated
      have above : w.maxHeightPrevoted < z.maxHeightPrevoted := by
        have step := next.prevoted
        rcases ok.progress with height | prevoted <;> omega
      have reaches := @consistentPrevoted (newBFTBlockHeader z) (newBFTBlockHeader w)
        (ok.same.trans next.same).symm above (by
          rw [contradictingSymm]
          exact eq_false_iff.mpr separate)
      have last : w.height ≤ z.maxHeightGenerated := reaches
      rw [next.generated] at last
      omega

theorem infoDecodes (height : info.height < 4294967296) (prevoted : info.maxHeightPrevoted < 4294967296)
    (generated : info.maxHeightGenerated < 4294967296) (ok : info.encode text = some encoded) :
    storedInfo text (some encoded) = .ok info := by
  have short : encoded.length < 9223372036854775808 := by
    obtain ⟨a,rest,isA,tail,rfl⟩ := Codec.Schema.encodeInv ok
    obtain ⟨b,rest',isB,tail',rfl⟩ := Codec.Schema.encodeInv tail
    obtain ⟨c,rest'',isC,last,rfl⟩ := Codec.Schema.encodeInv tail'
    cases last
    simp only [Codec.Kind.write,Codec.Writer.writeUInt32,Codec.Writer.writeUInt] at isA isB isC
    have first := Codec.fieldShort isA
    have second := Codec.fieldShort isB
    have third := Codec.fieldShort isC
    have one := Varint.putUvarintShort info.height
    have two := Varint.putUvarintShort info.maxHeightPrevoted
    have three := Varint.putUvarintShort info.maxHeightGenerated
    simp only [length_append,length_nil]
    omega
  have inc : GeneratorInfo.schema.Increasing 0 := by
    simp [GeneratorInfo.schema,Codec.Schema.Increasing,Codec.Kind.Increasing]
  have valid : GeneratorInfo.schema.Valid text info.value := ⟨height,prevoted,generated,trivial⟩
  have dec := Codec.Schema.decodeEncoded (by decide) inc valid ok short
  simp only [storedInfo,GeneratorInfo.decode,dec]
  rfl

def Following (last : BlockHeader) (chain : Chain) : Prop :=
  last ∈ chain ∨ ∃ tip rest, chain = tip :: rest ∧
    Forkchoice.isDifferentChain last.maxHeightPrevoted tip.maxHeightPrevoted last.height tip.height = true

/-- Successful calls for one address and the headers they produce, on chains that come about by allowed events.
Nothing else writes the info of the address. -/
inductive Forges (g : Generator) (genesis : BlockHeader) (allowed : Consensus.Event → Prop) (address : Bytes) :
    Option Bytes → Option BlockHeader → List BlockHeader → Prop where
  | done (stored previous) : Forges g genesis allowed address stored previous []
  | call {stored previous headers} {σ : Type} {app : App σ} {s : Situation} {block : Block} {db : GeneratorDB}
      (kept : s.generatorDB.get (prevInfoStore.getKey address) = stored)
      (reached : Reached g.engine genesis allowed ⟨s.store,s.chain⟩)
      (following : ∀ last ∈ previous, Following last s.chain)
      (forged : g.forge app s = .ok (block, db))
      (own : block.header.generatorAddress = address)
      (later : Forges g genesis allowed address (db.get (prevInfoStore.getKey address)) (some block.header) headers) :
      Forges g genesis allowed address stored previous (block.header :: headers)

def Keeps (g : Generator) (address : Bytes) (stored : Option Bytes) : Option BlockHeader → Prop
  | none => stored = none
  | some last => last.generatorAddress = address ∧ last.height < 4294967296 ∧ storedInfo g.text stored = .ok (infoOfHeader last)

section
variable {g : Generator} {genesis : BlockHeader} {address : Bytes} (small : genesis.height < maxUint32)
  (origin : genesis.maxHeightPrevoted ≤ genesis.height)
include small origin

theorem forgeSucceeds {σ : Type} {app : App σ} {s : Situation} {block} {db : GeneratorDB} {stored prev}
    (keeps : Keeps g address stored prev) (kept : s.generatorDB.get (prevInfoStore.getKey address) = stored)
    (reached : Reached g.engine genesis Event.WeightsFit ⟨s.store,s.chain⟩) (following : ∀ last ∈ prev, Following last s.chain)
    (forged : g.forge app s = .ok (block,db)) (own : block.header.generatorAddress = address) :
    (∀ last ∈ prev, Succeeds last block.header) ∧ (prev = none → block.header.maxHeightGenerated = 0) ∧
      Keeps g address (db.get (prevInfoStore.getKey address)) (some block.header) := by
  obtain ⟨⟨t,gen⟩,enc,ok,put,_⟩ := generatesOk forged
  obtain ⟨v,info,produced⟩ := gen.produced
  obtain ⟨v',tip,rest,votes,blocks,low,prevoted,chain⟩ := reachedTip small origin reached
  simp only at votes blocks chain
  have sameVotes : v' = v := Except.ok.inj (votes.symm.trans produced.votes)
  subst sameVotes
  have sameTip : tip = t.last := by simpa [blocks] using produced.tip
  have stored' := produced.stored
  rw [own,kept] at stored'
  rw [own] at put
  have height : block.header.height = tip.height+1 := by
    rw [produced.height,← sameTip]
    exact u32Small (by unfold maxUint32 at low; omega)
  have acknowledged : (∀ last ∈ prev, info = infoOfHeader last ∧ last.generatorAddress = address ∧ last.height < 4294967296) ∧
      (prev = none → info.height = 0) := by
    cases prev with
    | none =>
      have empty : stored = none := keeps
      rw [empty] at stored'
      cases stored'
      exact ⟨fun last mem => (not_mem_none _ mem).elim,fun _ => rfl⟩
    | some last =>
      obtain ⟨same,bound,read⟩ := keeps
      refine ⟨fun last' mem => ?_,fun empty => by cases empty⟩
      cases mem
      exact ⟨Except.ok.inj (stored'.symm.trans read),same,bound⟩
  obtain ⟨fromLast,fromNone⟩ := acknowledged
  have generated : info.height < 4294967296 := by
    cases prev with
    | none =>
      rw [fromNone rfl]
      decide
    | some last =>
      obtain ⟨same,_,bound⟩ := fromLast last rfl
      rw [same]
      exact bound
  refine ⟨fun last mem => ?_,fun empty => by rw [produced.generated,fromNone empty],own,?_,?_⟩
  · obtain ⟨same,addr',_⟩ := fromLast last mem
    have behind : last.maxHeightPrevoted ≤ v'.maxHeightPrevoted ∧
        (last.height ≤ tip.height ∨ last.maxHeightPrevoted < v'.maxHeightPrevoted) := by
      rcases following last mem with inside | ⟨tip',rest',blocks',better⟩
      · exact ⟨(chain last inside).1,.inl (chain last inside).2⟩
      have first := (chain tip (by simp [blocks])).1
      cases blocks.symm.trans blocks'
      simp only [Forkchoice.isDifferentChain,or_eq_true,and_eq_true,decide_eq_true_eq,beq_iff_eq] at better
      rcases better with more | ⟨higher,level⟩
      · exact ⟨by omega,.inr (by omega)⟩
      · exact ⟨by omega,.inl (by omega)⟩
    refine ⟨addr'.trans own.symm,?_,?_,?_⟩
    · rw [produced.generated,same]
      rfl
    · rw [produced.prevoted]
      exact behind.1
    rw [produced.prevoted,height]
    rcases behind.2 with lower | more
    · exact .inl (by omega)
    · exact .inr more
  · rw [produced.height]
    exact u32Lt _
  · rw [put]
    refine infoDecodes ?_ ?_ ?_ ok
    · show block.header.height < 4294967296
      rw [produced.height]
      exact u32Lt _
    · show block.header.maxHeightPrevoted < 4294967296
      rw [produced.prevoted]
      unfold maxUint32 at low
      omega
    · show block.header.maxHeightGenerated < 4294967296
      rw [produced.generated]
      exact generated

theorem forgesChain {stored : Option Bytes} (forges : Forges g genesis Event.WeightsFit address stored pre headers)
    (keeps : Keeps g address stored pre) :
    (pre.toList ++ headers).IsChain Succeeds ∧
      (pre = none → ∀ first ∈ headers.head?, first.maxHeightGenerated = 0) := by
  induction forges with
  | done stored pre => cases pre <;> simp
  | @call stored pre headers σ app s block db kept reached following forged own later ih =>
    obtain ⟨ok,first,keeps'⟩ := forgeSucceeds small origin keeps kept reached following forged own
    obtain ⟨chain,_⟩ := ih keeps'
    refine ⟨?_,fun empty header mem => ?_⟩
    · cases pre with
      | none => exact chain
      | some last => exact isChain_cons_cons.mpr ⟨ok last rfl,chain⟩
    · cases mem
      exact first empty

theorem neverContradictsIff {headers : List BlockHeader} (forges : Forges g genesis Event.WeightsFit address none none headers) :
    headers.Pairwise (fun x y => ¬Contradicts x y) ↔
      ∀ header ∈ headers.dropLast, header.maxHeightGenerated ≤ header.height := by
  obtain ⟨chain,first⟩ := forgesChain small origin forges rfl
  refine ⟨fun consistent => ?_,consistentOfOwn chain⟩
  cases headers with
  | nil => exact fun header member => (not_mem_nil member).elim
  | cons w rest =>
    have start := first rfl w rfl
    exact ownOfConsistent chain (by omega) consistent

end

def sampleForger : Generator :=
  ⟨sampleEngine,samplePlain,Smt.sampleSha,fun _ _ _ => [],OrderedMap.empty.set [2] [],1000⟩

def sampleApp : App Unit where
  initStateMachine _ := some ()
  insertAssets c := (some [], c)
  verifyAssets c _ := (some (), c)
  beforeTransactionsExecute c _ _ := (some [], c)
  verifyTransaction c _ := (some 1, c)
  executeTransaction c _ _ _ := (some (1, []), c)
  afterTransactionsExecute c _ _ _ := (some ⟨[],0,0,[]⟩, c)
  commit c _ _ _ := (some [], c)

def sampleGenesis : BlockHeader := sampleHeader 0 0 0 0 0 0 0

def sampleSetup : List Consensus.Event :=
  [.setBFTParameters 3 3 ([1,2,3,4].map sampleValidator),.setGeneratorKeys [⟨[1],[]⟩,⟨[2],[]⟩,⟨[3],[]⟩,⟨[4],[]⟩],.commit]

def sampleReach (events : List Consensus.Event) : Option ChainState :=
  (genesisState sampleGenesis).run sampleEngine.liskBFT (verifyBlockAccepts sampleEngine) (sampleSetup ++ events)

def sampleReached (events : List Consensus.Event) : ChainState := (sampleReach events).getD (genesisState sampleGenesis)

def sampleAt (events : List Consensus.Event) (db : GeneratorDB) (now : Nat) : Situation :=
  ⟨(sampleReached events).blocks,(sampleReached events).store,⟨[],[]⟩,[],db,false,now,now,id⟩

def sampleForged (events : List Consensus.Event) (db : GeneratorDB) (now : Nat) : Block × GeneratorDB :=
  ((sampleForger.forge sampleApp (sampleAt events db now)).toOption).getD (⟨sampleGenesis,[],[]⟩, OrderedMap.empty)

def sampleLong : List Consensus.Event :=
  (List.range 6).map (fun k => .block 1000 (sampleHeader (UInt8.ofNat (k + 1)) (k + 1) (40 * (k + 1)) (UInt8.ofNat k) 1 0 k))

def sampleShort : List Consensus.Event :=
  [.block 1000 (sampleHeader 11 1 40 0 1 0 0),.block 1000 (sampleHeader 12 2 60 11 3 0 0),
    .block 1000 (sampleHeader 13 3 70 12 4 0 0),.block 1000 (sampleHeader 14 4 80 13 1 1 1)]

def sampleFirst : Block × GeneratorDB := sampleForged sampleLong OrderedMap.empty 250
def sampleSecond : Block × GeneratorDB := sampleForged sampleShort sampleFirst.2 295
def sampleThird : Block × GeneratorDB :=
  sampleForged (sampleShort ++ [.block 1000 sampleSecond.1.header]) sampleSecond.2 335

theorem sampleCall (named : res = sampleForged events db now)
    (kept : db.get (prevInfoStore.getKey [2]) = stored) (fit : ∀ e ∈ sampleSetup ++ events, e.WeightsFit)
    (reached : (sampleReach events).isSome = true) (following : ∀ last ∈ previous, Following last (sampleReached events).blocks)
    (forged : (sampleForger.forge sampleApp (sampleAt events db now)).toOption.isSome = true)
    (own : res.1.header.generatorAddress = [2])
    (later : Forges sampleForger sampleGenesis Event.WeightsFit [2] (res.2.get (prevInfoStore.getKey [2])) (some res.1.header) headers) :
    Forges sampleForger sampleGenesis Event.WeightsFit [2] stored previous (res.1.header::headers) := by
  obtain ⟨s,run⟩ := isSome_iff_exists.mp reached
  have same : sampleReached events = s := by rw [sampleReached,run,getD_some]
  have forged : sampleForger.forge sampleApp (sampleAt events db now) = .ok res := by
    rw [named]
    unfold sampleForged
    cases call : sampleForger.forge sampleApp (sampleAt events db now) with
    | error e => rw [call] at forged; cases forged
    | ok res => rfl
  exact .call kept ⟨_,fit,by rw [← same] at run; exact run⟩ following forged own later

theorem followingBetter (better : (chain.head?.map (fun tip =>
      Forkchoice.isDifferentChain last.maxHeightPrevoted tip.maxHeightPrevoted last.height tip.height)) = some true) :
    Following last chain := by
  cases chain with
  | nil => cases better
  | cons tip rest => exact .inr ⟨tip,rest,rfl,some.inj better⟩

theorem sampleFollowing (following : Following last chain) : ∀ last' ∈ some last, Following last' chain := by
  intro last' mem
  rw [← mem_some_iff.mp mem]
  exact following

theorem sampleTwoForged (later : Forges sampleForger sampleGenesis Event.WeightsFit [2] (sampleSecond.2.get (prevInfoStore.getKey [2]))
      (some sampleSecond.1.header) headers) :
    Forges sampleForger sampleGenesis Event.WeightsFit [2] none none (sampleFirst.1.header::sampleSecond.1.header::headers) := by
  have second : Forges sampleForger sampleGenesis Event.WeightsFit [2] (sampleFirst.2.get (prevInfoStore.getKey [2]))
      (some sampleFirst.1.header) (sampleSecond.1.header::headers) :=
    sampleCall (by rw [sampleSecond]) (by rfl) (by decide) (by decide +kernel)
      (sampleFollowing (followingBetter (by decide +kernel))) (by decide +kernel) (by decide +kernel) later
  exact sampleCall (by rw [sampleFirst]) (by rfl) (by decide) (by decide +kernel)
    (fun last mem => (not_mem_none _ mem).elim) (by decide +kernel) (by decide +kernel) second

theorem neverContradictsTwoCalls : Forges sampleForger sampleGenesis Event.WeightsFit [2] none none [sampleFirst.1.header, sampleSecond.1.header] ∧
    [sampleFirst.1.header, sampleSecond.1.header].Pairwise (fun x y => ¬Contradicts x y) := by
  have forges := sampleTwoForged (.done _ _)
  exact ⟨forges,(neverContradictsIff (by decide) (by decide) forges).mpr (by decide +kernel)⟩

theorem thirdContradictsFirst : Forges sampleForger sampleGenesis Event.WeightsFit [2] none none
      [sampleFirst.1.header, sampleSecond.1.header, sampleThird.1.header] ∧
    Contradicts sampleFirst.1.header sampleThird.1.header := by
  have third : Forges sampleForger sampleGenesis Event.WeightsFit [2] (sampleSecond.2.get (prevInfoStore.getKey [2]))
      (some sampleSecond.1.header) [sampleThird.1.header] :=
    sampleCall (by rw [sampleThird]) (by rfl) (by decide +kernel) (by decide +kernel) (sampleFollowing (.inl (by decide +kernel)))
      (by decide +kernel) (by decide +kernel) (.done _ _)
  exact ⟨sampleTwoForged third,by decide +kernel⟩

end Generation
end LiskEngine
