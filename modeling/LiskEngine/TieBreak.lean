import LiskEngine.ForkChoice
import LiskEngine.Replay

/-! A received block. A block that wins a tie break replaces the tip; if it is rejected the
tip is processed again, which writes its transactions anew even where they had been lost. -/
namespace LiskEngine.Consensus
open Liskbft Blockchain Labi Diffdb Forkchoice List Option OrderedMap Except

inductive ProcessError where
  | invalidBlock (e : BlockError)
  | execute (e : ExecuteError)
  | syncFailed
  deriving DecidableEq, Repr

structure Clock where
  received : Nat
  verified : Nat
  restored : Nat

section
variable {σ : Type} (c : Executer) (o : Oracle σ) (text : Codec.Normalizer) (sha : Bytes → Bytes)

def forkChoice (lastBlockReceived : Option Nat) (clock : Clock) (lastBlock block : Block) : ForkChoice :=
  ⟨c.engine,lastBlock.header,block.header,lastBlockReceived,clock.received⟩

def replaceTip (clock : Clock) (m : Machine σ) (lastBlock block : Block) : Option ProcessError × Machine σ :=
  match m.deleteBlock c o false with
  | .error e => (some (.execute e), m)
  | .ok deleted =>
    match deleted.processValidated c o clock.verified block false with
    | .ok m' => (none, m')
    | .error _ =>
      match deleted.processValidated c o clock.restored lastBlock false with
      | .ok m' => (none, m')
      | .error _ => (none, deleted)

def process (lastBlockReceived : Option Nat) (clock : Clock) (sync : Machine σ → Option ProcessError × Machine σ) (m : Machine σ)
    (block : Block) : Option ProcessError × Machine σ :=
  match m.node.cache.head? with
  | none => (some (.execute .runtimePanic), m)
  | some lastBlock =>
    let choice := forkChoice c lastBlockReceived clock lastBlock block
    if choice.isIdenticalBlock then (none, m)
    else if choice.isValidBlock then
      match block.validate text sha with
      | .error e => (some (.invalidBlock e), m)
      | .ok () =>
        match m.processValidated c o clock.verified block false with
        | .ok m' => (none, m')
        | .error e => (some (.execute e), m)
    else if choice.isDoubleForging then (none, m)
    else if choice.isTieBreak then
      match block.validate text sha with
      | .error e => (some (.invalidBlock e), m)
      | .ok () => replaceTip c o clock m lastBlock block
    else if choice.isDifferentChain then sync m
    else (none, m)

end

structure Saved (db : BlockDB) (block : Block) (events : List Blockchain.Event) : Prop where
  header : db.blockHeaders.get block.header.id = some block.header
  transactions : ∀ tx ∈ block.transactions,
    db.transactions.get tx.id = block.transactions.reverse.find? (fun t => t.id = tx.id)
  transactionIDs : block.transactions ≠ [] → db.transactionIDs.get block.header.id = some (block.transactions.map (·.id))
  assets : block.assets ≠ [] → db.assets.get block.header.id = some block.assets
  events : events = [] → db.events.get block.header.height = none

section
variable {K V : Type} [LinearOrder K]

theorem delSet (table : OrderedMap K V) (k : K) (v : V) : (table.del k).set k v = table ↔ table.get k = some v := by
  constructor
  · intro same
    rw [← same,getSet,if_pos rfl]
  intro held
  refine extGet fun k' => ?_
  rw [getSet,getDel]
  split
  · rename_i same
    rw [same,held]
  · rfl

theorem delAbsent (table : OrderedMap K V) (k : K) : table.del k = table ↔ table.get k = none := by
  constructor
  · intro same
    rw [← same,getDel,if_pos rfl]
  intro absent
  refine extGet fun k' => ?_
  rw [getDel]
  split
  · rename_i same
    rw [same,absent]
  · rfl

end

section
variable (txs : List Transaction) (table : OrderedMap Bytes Transaction)

theorem savedGet (id : Bytes) :
    (txs.foldl (fun txs tx => txs.set tx.id tx) table).get id = (txs.reverse.find? (·.id = id)).or (table.get id) := by
  induction txs generalizing table with
  | nil => rfl
  | cons tx rest ih =>
    rw [foldl_cons,ih,reverse_cons,find?_append,getSet]
    cases rest.reverse.find? (·.id = id) with
    | some t => rfl
    | none =>
      by_cases same : tx.id = id
      · simp [same]
      · simp [same,Ne.symm same]

theorem removedGet (id : Bytes) :
    (txs.foldl (fun txs tx => txs.del tx.id) table).get id = if id ∈ txs.map (·.id) then none else table.get id := by
  induction txs generalizing table with
  | nil => rfl
  | cons tx rest ih =>
    rw [foldl_cons,ih,getDel]
    by_cases first : id = tx.id
    · simp [first]
    · simp [first]

theorem resavedTransactions : txs.foldl (fun txs tx => txs.set tx.id tx) (txs.foldl (fun txs tx => txs.del tx.id) table) = table ↔
      ∀ tx ∈ txs, table.get tx.id = txs.reverse.find? (·.id = tx.id) := by
  have own : ∀ tx ∈ txs, ∃ t, txs.reverse.find? (·.id = tx.id) = some t := by
    intro tx mem
    refine isSome_iff_exists.mp (find?_isSome.mpr ⟨tx,mem_reverse.mpr mem,?_⟩)
    simp
  constructor
  · intro same tx mem
    obtain ⟨t,isLast⟩ := own tx mem
    have read := congrArg (get · tx.id) same
    simp only [savedGet,isLast,some_or] at read
    rw [isLast,read]
  · intro held
    refine extGet fun id => ?_
    rw [savedGet,removedGet]
    split
    · rename_i mem
      obtain ⟨tx,inside,rfl⟩ := mem_map.mp mem
      rw [held tx inside,or_none]
    · rename_i absent
      have missing : txs.reverse.find? (·.id = id) = none := by
        refine find?_eq_none.mpr fun tx mem => ?_
        have : tx.id ≠ id := fun same => absent (same ▸ mem_map_of_mem (mem_reverse.mp mem))
        simpa using this
      rw [missing,none_or]

end

theorem resavedRow {α β : Type} (table : OrderedMap Bytes (List α)) (k : Bytes) (row : List α) (elements : List β) :
    (if elements.length > 0 then (if elements.length > 0 then table.del k else table).set k row
      else if elements.length > 0 then table.del k else table) = table ↔ (elements ≠ [] → table.get k = some row) := by
  cases elements with
  | nil => simp
  | cons x rest => simp [delSet]

theorem resavedEvents (pruned : Pruned keep table finalized height)
    (above : finalized < height) (held : events ≠ [] → table.get height = some events) :
    eventsKept keep (table.del height) (if events.length > 0 then (table.del height).set height events else table.del height)
        finalized height = table ↔ (events = [] → table.get height = none) := by
  have fewer := pruned.lower (Nat.le_refl _) fun x low absent => (getDel _ _ _).trans ((if_neg (Nat.ne_of_lt low)).trans absent)
  rw [prunedKept fewer above]
  cases events with
  | nil => simp [delAbsent]
  | cons e rest => simp [(delSet table height (e::rest)).mpr (held (cons_ne_nil _ _))]

theorem resavedIff (stored : db.finalizedHeight = some finalized) (listed : db.blockIDs.get block.header.height = some block.header.id)
    (pruned : Pruned keep db.events finalized block.header.height) (above : finalized < block.header.height)
    (held : events ≠ [] → db.events.get block.header.height = some events) :
    (db.removeBlock block false).saveBlock keep block events finalized false = db ↔ Saved db block events := by
  have header := delSet db.blockHeaders block.header.id block.header
  have txs := resavedTransactions block.transactions db.transactions
  have txIDs := resavedRow db.transactionIDs block.header.id (block.transactions.map (·.id)) block.transactions
  have assets := resavedRow db.assets block.header.id block.assets block.assets
  have kept := resavedEvents pruned above held
  have ids := (delSet db.blockIDs block.header.height block.header.id).mpr listed
  constructor
  · intro same
    exact ⟨header.mp (congrArg BlockDB.blockHeaders same),txs.mp (congrArg BlockDB.transactions same),
      txIDs.mp (congrArg BlockDB.transactionIDs same),assets.mp (congrArg BlockDB.assets same),
      kept.mp (congrArg BlockDB.events same)⟩
  · intro saved
    obtain ⟨blockHeaders,blockIDs,transactions,transactionIDs,eventTable,assetTable,fin,temp⟩ := db
    rw [BlockDB.saveBlock,BlockDB.removeBlock,BlockDB.mk.injEq]
    exact ⟨header.mpr saved.header,ids,txs.mpr saved.transactions,txIDs.mpr saved.transactionIDs,kept.mpr saved.events,
      assets.mpr saved.assets,stored.symm,rfl⟩

section
variable {σ : Type} {c : Executer} {o : Oracle σ} {m deleted : Machine σ} {finalized : Nat}

theorem restoredIff (rebuilt : Rebuilt c o m finalized)
    (off : TakenOff c o m deleted finalized tip previous rest now contextID store events v false) :
    deleted.processValidated c o later tip false = .ok m ↔
      c.engine.getSlotNumber tip.header.timestamp ≤ c.engine.getSlotNumber later ∧ Saved m.node.db.blocks tip events := by
  have isTip : tip ∈ m.node.cache.head? := by
    rw [off.cache]
    rfl
  have storedHeight : deleted.node.db.blocks.finalizedHeight = some finalized := by
    rw [off.blocks]
    exact rebuilt.stored
  have resaved := resavedIff rebuilt.stored off.listed (rebuilt.pruned tip isTip) off.above off.events
  have same : withPassed c deleted.node tip store events v finalized false =
      ⟨⟨(m.node.db.blocks.removeBlock tip false).saveBlock c.keepEventsForHeights tip events finalized false,m.node.db.state,
        m.node.db.stateDiff⟩,m.node.cache⟩ := by
    unfold withPassed addBlock finalize
    rw [if_neg (Nat.not_lt.mpr off.precommited),off.diffs,(delSet _ _ _).mpr off.diff,← off.committed,off.blocks,off.cache',off.cache]
  have passes : Passes c (o.abi deleted.app) now deleted.node.db.state deleted.node.cache tip contextID store events v := by
    rw [off.cache']
    exact off.passes
  unfold Machine.processValidated
  constructor
  · intro ok
    obtain ⟨node,processed,isNode⟩ := bindOk ok
    cases isNode
    obtain ⟨_,_,_,_,_,again,_,_⟩ := passesOk processed
    have cur := (verifiedAgain passes.verified).mp again.verified
    refine ⟨cur,resaved.mp ?_⟩
    rw [(passes.again cur).accepted storedHeight false,same] at processed
    exact congrArg (·.db.blocks) (Except.ok.inj processed)
  · rintro ⟨cur,saved⟩
    rw [(passes.again cur).accepted storedHeight false,same,resaved.mpr saved]
    rw [← off.moved]
    rfl

theorem replacedIff (rebuilt : Rebuilt c o m finalized) (isTip : m.node.cache.head? = some tip)
    (removed : m.deleteBlock c o false = .ok deleted) (rejected : deleted.processValidated c o clock.verified block false = .error e) :
    ∃ now cid store events v, Passes c (o.abi deleted.app) now deleted.node.db.state deleted.node.cache tip cid store events v ∧
      ((replaceTip c o clock m tip block).2 = m ↔
        c.engine.getSlotNumber tip.header.timestamp ≤ c.engine.getSlotNumber clock.restored ∧ Saved m.node.db.blocks tip events) := by
  obtain ⟨top,prev,rest,now,cid,store,events,v,off⟩ := takenOff rebuilt removed
  rw [off.cache] at isTip
  cases isTip
  have passes := off.passes
  rw [← off.cache'] at passes
  refine ⟨now,cid,store,events,v,passes,?_⟩
  rw [← restoredIff rebuilt off,replaceTip,removed]
  simp only [rejected]
  cases restored : deleted.processValidated c o clock.restored tip false with
  | ok m' => exact ⟨fun same => congrArg ok same,fun same => ok.inj same⟩
  | error e' =>
    refine iff_of_false (fun same => ?_) (fun same => by cases same)
    have lens := congrArg (·.node.cache.length) same
    simp only [off.cache,off.cache',length_cons] at lens
    omega

end

theorem tieBreakRestoresIff {σ : Type} (c : Executer) (o : Oracle σ) (text : Codec.Normalizer) (sha : Bytes → Bytes) {abi : ABI}
    {genesis : Block} (small : genesis.header.height ≤ maxUint32) {start : Node}
    (processed : processGenesisBlock c abi emptyNode genesis = .ok start) (app : σ) (operations : List MachineOperation)
    (lastBlockReceived : Option Nat) (clock : Clock) (sync : Machine σ → Option ProcessError × Machine σ) (block : Block)
    {m deleted : Machine σ} (reached : Machine.run c o ⟨start, app⟩ operations = m) {tip : Block} {e : ExecuteError}
    (isTip : m.node.cache.head? = some tip) (tieBreak : (forkChoice c lastBlockReceived clock tip block).isTieBreak = true)
    (identical : (forkChoice c lastBlockReceived clock tip block).isIdenticalBlock = false)
    (doubleForging : (forkChoice c lastBlockReceived clock tip block).isDoubleForging = false)
    (valid : block.validate text sha = .ok ()) (removed : m.deleteBlock c o false = .ok deleted)
    (rejected : deleted.processValidated c o clock.verified block false = .error e) :
    ∃ now contextID store events v,
      Passes c (o.abi deleted.app) now deleted.node.db.state deleted.node.cache tip contextID store events v ∧
      ((process c o text sha lastBlockReceived clock sync m block).2 = m ↔
        c.engine.getSlotNumber tip.header.timestamp ≤ c.engine.getSlotNumber clock.restored ∧ Saved m.node.db.blocks tip events) := by
  obtain ⟨finalized,rebuilt⟩ := rebuiltRun (rebuiltGenesis (o := o) small processed app) operations
  rw [reached] at rebuilt
  have successor : (forkChoice c lastBlockReceived clock tip block).isValidBlock = false := by
    unfold ForkChoice.isTieBreak ForkChoice.isDuplicateBlock at tieBreak
    simp only [decide_eq_true_eq] at tieBreak
    have same := tieBreak.1.1
    unfold ForkChoice.isValidBlock
    rw [decide_eq_false_iff_not,← same]
    unfold u32
    omega
  have taken : process c o text sha lastBlockReceived clock sync m block = replaceTip c o clock m tip block := by
    unfold process
    rw [isTip]
    simp only [identical,successor,doubleForging,tieBreak,valid,Bool.false_eq_true,if_false,if_true]
  rw [taken]
  exact replacedIff rebuilt isTip removed rejected

def tieAddress (key : UInt8) : Bytes := List.replicate 20 key

def tieABI : ABI :=
  {sampleABI with initGenesisState := fun _ => some ⟨[],2,2,[⟨tieAddress 1,1,[],[1]⟩,⟨tieAddress 2,1,[],[2]⟩]⟩}

def tieOracle : Oracle Unit := ⟨fun _ => tieABI,fun _ _ => (),fun _ _ => (),fun _ _ => rfl⟩

def tieHeader (id previous : UInt8) (height timestamp : Nat) (generator : UInt8) (maxHeightGenerated : Nat) : BlockHeader :=
  {sampleHeader 0 height timestamp 0 0 0 maxHeightGenerated with
    id := List.replicate 32 id, previousBlockID := List.replicate 32 previous, generatorAddress := tieAddress generator
    signature := List.replicate 64 0}

def tieTransaction : Transaction := ⟨[9],"token","transfer",0,0,[],[],[]⟩

def tieTip : Block := ⟨tieHeader 1 0 1 10 2 0,[tieTransaction],[]⟩

def tieNext : Block := ⟨tieHeader 2 1 2 30 2 1,[tieTransaction],[]⟩

def tieReceived : Block := ⟨{tieHeader 3 0 1 20 1 0 with validatorsHash := [1]},[],[]⟩

def tieStart : Node :=
  match processGenesisBlock sampleExecuter tieABI emptyNode ⟨tieHeader 0 0 0 0 0 0,[],[]⟩ with
  | .ok n => n
  | .error _ => emptyNode

def tieReached (operations : List MachineOperation) : Machine Unit := Machine.run sampleExecuter tieOracle ⟨tieStart,()⟩ operations

def tieDeleted (operations : List MachineOperation) : Machine Unit :=
  match (tieReached operations).deleteBlock sampleExecuter tieOracle false with
  | .ok m => m
  | .error _ => tieReached operations

def tieText : Codec.Normalizer := .plain

def tieClock : Clock := ⟨25,25,25⟩

theorem tieProcessed : processGenesisBlock sampleExecuter tieABI emptyNode ⟨tieHeader 0 0 0 0 0 0,[],[]⟩ = .ok tieStart := by
  have acc : (processGenesisBlock sampleExecuter tieABI emptyNode ⟨tieHeader 0 0 0 0 0 0,[],[]⟩).toOption.isSome = true := by
    decide +kernel
  unfold tieStart
  cases res : processGenesisBlock sampleExecuter tieABI emptyNode ⟨tieHeader 0 0 0 0 0 0,[],[]⟩ with
  | ok n => rfl
  | error e =>
    rw [res] at acc
    cases acc

theorem tieRemoved (found : ((tieReached operations).deleteBlock sampleExecuter tieOracle false).toOption.isSome = true) :
    (tieReached operations).deleteBlock sampleExecuter tieOracle false = .ok (tieDeleted operations) := by
  unfold tieDeleted
  cases res : (tieReached operations).deleteBlock sampleExecuter tieOracle false with
  | ok n => rfl
  | error e =>
    rw [res] at found
    cases found

theorem tieBreakRestoresTip : ∃ now contextID store events v,
    Passes sampleExecuter tieABI now (tieDeleted [.processValidated 100 tieTip false]).node.db.state
      (tieDeleted [.processValidated 100 tieTip false]).node.cache tieTip contextID store events v ∧
    ((process sampleExecuter tieOracle tieText (fun _ => []) (some 25) tieClock (fun m => (none, m))
        (tieReached [.processValidated 100 tieTip false]) tieReceived).2 = tieReached [.processValidated 100 tieTip false] ↔
      1 ≤ sampleExecuter.engine.getSlotNumber 25 ∧
        Saved (tieReached [.processValidated 100 tieTip false]).node.db.blocks tieTip events) := by
  have isRejected : ((tieDeleted [.processValidated 100 tieTip false]).processValidated sampleExecuter tieOracle 25 tieReceived
      false).toOption.isSome = false := by decide +kernel
  cases rejected : (tieDeleted [.processValidated 100 tieTip false]).processValidated sampleExecuter tieOracle 25 tieReceived false with
  | ok n =>
    rw [rejected] at isRejected
    cases isRejected
  | error e =>
    exact tieBreakRestoresIff sampleExecuter tieOracle tieText (fun _ => []) (by decide) tieProcessed () _ (some 25) tieClock
      (fun m => (none, m)) tieReceived rfl (by decide +kernel) (by decide +kernel) (by decide +kernel) (by decide +kernel)
      (by decide +kernel) (tieRemoved (by decide +kernel)) rejected

def tieOperations : List MachineOperation :=
  [.processValidated 100 tieTip false,.processValidated 100 tieNext false,.deleteBlock false]

theorem rejectedBlockAddsTransaction : ((forkChoice sampleExecuter (some 25) tieClock tieTip tieReceived).isTieBreak = true ∧
      (tieReached tieOperations).node.cache.head? = some tieTip ∧
      ((tieDeleted tieOperations).processValidated sampleExecuter tieOracle 25 tieReceived false).toOption.isSome = false) ∧
    (tieReached tieOperations).node.db.blocks.transactions.get [9] = none ∧
    (process sampleExecuter tieOracle tieText (fun _ => []) (some 25) tieClock (fun m => (none, m)) (tieReached tieOperations)
      tieReceived).2.node.db.blocks.transactions.get [9] = some tieTransaction := by
  refine ⟨⟨by decide +kernel,by decide +kernel,by decide +kernel⟩,by decide +kernel,by decide +kernel⟩

/-- The block may become the tip: it extends the tip and counts no fewer prevotes, wins the
tie break or is on a better chain. -/
def Moves (slot : Engine) (tip block : BlockHeader) : Prop :=
  ∃ c : ForkChoice, c.slot = slot ∧ c.lastHeader = tip ∧ c.currentHeader = block ∧
    (c.isValidBlock ∧ tip.height < maxUint32 ∧ tip.maxHeightPrevoted ≤ block.maxHeightPrevoted ∨ c.isTieBreak ∨ c.isDifferentChain)

def Below (slot : Engine) (a b : BlockHeader) : Prop :=
  a.maxHeightPrevoted < b.maxHeightPrevoted ∨ a.maxHeightPrevoted = b.maxHeightPrevoted ∧
    (a.height < b.height ∨ a.height = b.height ∧ slot.getSlotNumber a.timestamp < slot.getSlotNumber b.timestamp)

theorem movesBelow {slot a b} (moves : Moves slot a b) : Below slot a b := by
  obtain ⟨c,rfl,rfl,rfl,⟨valid,small,low⟩ | tie | better⟩ := moves
  · simp only [ForkChoice.isValidBlock,decide_eq_true_eq] at valid
    have next : c.lastHeader.height < c.currentHeader.height := by
      rw [← valid.1,u32Small (Nat.add_lt_add_right small 1)]
      exact Nat.lt_succ_self _
    rcases low.lt_or_eq with smaller | same
    · exact .inl smaller
    · exact .inr ⟨same,.inl next⟩
  · simp only [ForkChoice.isTieBreak,ForkChoice.isDuplicateBlock,decide_eq_true_eq] at tie
    exact .inr ⟨tie.1.2.1,.inr ⟨tie.1.1,tie.2.1⟩⟩
  · simp only [ForkChoice.isDifferentChain,isDifferentChain,Bool.or_eq_true,Bool.and_eq_true,decide_eq_true_eq,
      beq_iff_eq] at better
    exact better.imp_right (fun ⟨higher,same⟩ => ⟨same,.inl higher⟩)

theorem tipNeverReturns (slot : Engine) (tips : List BlockHeader) (run : tips.IsChain (Moves slot)) :
    tips.Pairwise (fun a b => a ≠ b ∧ ¬ Moves slot b a) := by
  have trans : IsTrans BlockHeader (Below slot) := ⟨fun a b c ab bc => by unfold Below at *; omega⟩
  refine (List.isChain_iff_pairwise.mp (run.imp fun _ _ => movesBelow)).imp (fun {a b} below => ⟨?_,fun back => ?_⟩)
  · rintro rfl
    simp [Below] at below
  · have above := movesBelow back
    unfold Below at below above
    omega

theorem tipNeverReturnsSample : [tieTip.header, tieReceived.header, tieNext.header].Pairwise (fun a b =>
    a ≠ b ∧ ¬ Moves sampleEngine b a) :=
  tipNeverReturns sampleEngine _ (.cons_cons ⟨⟨_,_,_,some 25,25⟩,rfl,rfl,rfl,.inr (.inl (by decide))⟩
    (.cons_cons ⟨⟨_,_,_,none,0⟩,rfl,rfl,rfl,.inr (.inr (by decide))⟩ (.singleton _)))

end LiskEngine.Consensus
