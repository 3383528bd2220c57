import LiskEngine.BlockList
import LiskEngine.Finality

/-! The rows of the blocks of a node. Transactions are stored once under their IDs, so the
deletion of a block takes away the transactions that it shares with a block below it. -/
namespace LiskEngine.Blockchain
open List Option OrderedMap

structure HasRows (db : BlockDB) (block : Block) : Prop where
  header : db.blockHeaders.get block.header.id = some block.header
  transactionIDs : db.transactionIDs.get block.header.id = nonEmpty (block.transactions.map (·.id))
  transactions : ∀ tx ∈ block.transactions, db.transactions.get tx.id = some tx
  assets : db.assets.get block.header.id = nonEmpty block.assets

theorem HasRows.getBlock {db block} (stored : HasRows db block) : db.getBlock block.header.id = some block := by
  have txs : db.getTransactions block.header.id = some block.transactions := by
    unfold BlockDB.getTransactions
    rw [stored.transactionIDs,nonEmpty]
    split
    · rename_i absent
      cases shape : block.transactions with
      | nil => rfl
      | cons tx rest => simp [shape] at absent
    · rename_i txIDs present
      obtain ⟨_,rfl⟩ := ite_some_none_eq_some.mp present
      exact mapMOwn stored.transactions
  simp only [BlockDB.getBlock,stored.header,txs,stored.assets,nonEmptyGetD,bind,Option.bind]

/-- The IDs of a new block and of its transactions name nothing else among the blocks. -/
def NewNames (block : Block) (blocks : List Block) : Prop :=
  ∀ b ∈ block :: blocks, (b.header.id = block.header.id → b = block) ∧
    ∀ tx ∈ b.transactions, ∀ tx' ∈ block.transactions, tx.id = tx'.id → tx = tx'

/-- A block shares neither its ID nor a transaction with the blocks. -/
def SharesNone (block : Block) (blocks : List Block) : Prop :=
  ∀ b ∈ blocks, b.header.id ≠ block.header.id ∧ ∀ tx ∈ b.transactions, ∀ tx' ∈ block.transactions, tx.id ≠ tx'.id

instance (block : Block) (blocks : List Block) : Decidable (NewNames block blocks) := by unfold NewNames; infer_instance

instance (block : Block) (blocks : List Block) : Decidable (SharesNone block blocks) := by unfold SharesNone; infer_instance

structure Rows (db : BlockDB) (blocks : List Block) : Prop where
  stored : ∀ b ∈ blocks, HasRows db b
  free : ∀ id, (∀ b ∈ blocks, b.header.id ≠ id) → db.transactionIDs.get id = none ∧ db.assets.get id = none

section
variable {txs : List Transaction} {tx : Transaction} {id : Bytes}

theorem savedTransaction (table : OrderedMap Bytes Transaction) (names : ∀ tx' ∈ txs, tx.id = tx'.id → tx = tx')
    (held : table.get tx.id = some tx ∨ tx ∈ txs) : (txs.foldl (fun txs tx => txs.set tx.id tx) table).get tx.id = some tx := by
  induction txs generalizing table with
  | nil => simpa using held
  | cons t rest ih =>
    refine ih _ (fun tx' mem => names tx' (mem_cons_of_mem _ mem)) ?_
    by_cases same : tx.id = t.id
    · obtain rfl := names t mem_cons_self same
      exact .inl (by rw [getSet,if_pos rfl])
    · rw [getSet,if_neg same]
      refine held.imp_right (fun mem => (mem_cons.mp mem).resolve_left ?_)
      rintro rfl
      exact same rfl

theorem removedTransactions (table : OrderedMap Bytes Transaction) :
    (txs.foldl (fun txs tx => txs.del tx.id) table).get id = if id ∈ txs.map (·.id) then none else table.get id := by
  induction txs generalizing table with
  | nil => simp
  | cons t rest ih =>
    rw [foldl_cons,ih,getDel]
    by_cases here : id = t.id <;> by_cases later : id ∈ rest.map (·.id) <;> simp_all

end

section
variable {db : BlockDB} {blocks : List Block} {block : Block}

theorem savedOwn {α : Type} {xs : List α} {table : OrderedMap Bytes (List α)} {id} (before : xs = [] → table.get id = none) :
    (if xs.length > 0 then table.set id xs else table).get id = nonEmpty xs := by
  unfold nonEmpty
  split
  · rw [getSet,if_pos rfl]
  · exact before (eq_nil_of_length_eq_zero (by omega))

theorem savedOther {α : Type} {cond : Prop} [Decidable cond] {xs : α} {table : OrderedMap Bytes α} {id key} (other : key ≠ id) :
    (if cond then table.set id xs else table).get key = table.get key := by
  split
  · rw [getSet,if_neg other]
  · rfl

theorem removedOther {α : Type} {cond : Prop} [Decidable cond] {table : OrderedMap Bytes α} {id key} (other : key ≠ id) :
    (if cond then table.del id else table).get key = table.get key := by
  split
  · rw [getDel,if_neg other]
  · rfl

theorem Rows.saved (rows : Rows db blocks) (names : NewNames block blocks) {keep events fin removeTemp} :
    Rows (db.saveBlock keep block events fin removeTemp) (block::blocks) := by
  have own : ∀ tx ∈ block.transactions, ∀ tx' ∈ block.transactions, tx.id = tx'.id → tx = tx' :=
    (names block mem_cons_self).2
  have empty : (block.transactions = [] → db.transactionIDs.get block.header.id = none) ∧
      (block.assets = [] → db.assets.get block.header.id = none) := by
    by_cases held : ∃ b ∈ blocks, b.header.id = block.header.id
    · obtain ⟨b,mem,same⟩ := held
      obtain rfl := (names b (mem_cons_of_mem _ mem)).1 same
      have stored := rows.stored b mem
      exact ⟨fun absent => by simp [stored.transactionIDs,absent,nonEmpty],fun absent => by simp [stored.assets,absent,nonEmpty]⟩
    · obtain ⟨ids,assets⟩ := rows.free block.header.id (fun b mem same => held ⟨b,mem,same⟩)
      exact ⟨fun _ => ids,fun _ => assets⟩
  have added : HasRows (db.saveBlock keep block events fin removeTemp) block := by
    refine ⟨?_,?_,fun tx mem => savedTransaction _ (own tx mem) (.inr mem),savedOwn empty.2⟩
    · simp [BlockDB.saveBlock,getSet]
    · have ids := @savedOwn _ (block.transactions.map (·.id)) db.transactionIDs block.header.id (by simpa using empty.1)
      rwa [length_map] at ids
  refine ⟨forall_mem_cons.mpr ⟨added,fun b mem => ?_⟩,fun id fresh => ?_⟩
  · by_cases same : b.header.id = block.header.id
    · rw [(names b (mem_cons_of_mem _ mem)).1 same]
      exact added
    · have stored := rows.stored b mem
      refine ⟨?_,(savedOther same).trans stored.transactionIDs,fun tx member => ?_,(savedOther same).trans stored.assets⟩
      · simp [BlockDB.saveBlock,getSet,same,stored.header]
      · exact savedTransaction _ ((names b (mem_cons_of_mem _ mem)).2 tx member) (.inl (stored.transactions tx member))
  · obtain ⟨other,others⟩ := forall_mem_cons.mp fresh
    obtain ⟨ids,assets⟩ := rows.free id others
    exact ⟨(savedOther other.symm).trans ids,(savedOther other.symm).trans assets⟩

theorem namesOf (stored : ∀ b ∈ block::blocks, HasRows db b) : NewNames block blocks := by
  have own := stored block mem_cons_self
  intro b mem
  have other := stored b mem
  refine ⟨fun same => ?_,fun tx member tx' member' same => ?_⟩
  · have read := other.getBlock
    rw [same,own.getBlock] at read
    exact (Option.some.inj read).symm
  · have held := other.transactions tx member
    rw [same,own.transactions tx' member'] at held
    exact (Option.some.inj held).symm

theorem Rows.removed (rows : Rows db (block::blocks)) (apart : SharesNone block blocks) {saveTemp} :
    Rows (db.removeBlock block saveTemp) blocks := by
  refine ⟨fun b mem => ?_,fun id fresh => ?_⟩
  · have stored := rows.stored b (mem_cons_of_mem _ mem)
    obtain ⟨other,txs⟩ := apart b mem
    refine ⟨?_,(removedOther other).trans stored.transactionIDs,fun tx member => ?_,(removedOther other).trans stored.assets⟩
    · simp [BlockDB.removeBlock,getDel,other,stored.header]
    · refine (removedTransactions _).trans ?_
      rw [if_neg ?_,stored.transactions tx member]
      intro shared
      obtain ⟨tx',member',same⟩ := mem_map.mp shared
      exact txs tx member tx' member' same.symm
  · by_cases same : id = block.header.id
    · have stored := rows.stored block mem_cons_self
      subst same
      constructor
      · show (if block.transactions.length > 0 then _ else _ : OrderedMap Bytes (List Bytes)).get _ = none
        split
        · rw [getDel,if_pos rfl]
        · rw [stored.transactionIDs,nonEmpty,if_neg (by rwa [length_map])]
      · show (if block.assets.length > 0 then _ else _ : OrderedMap Bytes (List BlockAsset)).get _ = none
        split
        · rw [getDel,if_pos rfl]
        · rw [stored.assets,nonEmpty,if_neg ‹_›]
    · obtain ⟨ids,assets⟩ := rows.free id (forall_mem_cons.mpr ⟨Ne.symm same,fresh⟩)
      exact ⟨(removedOther same).trans ids,(removedOther same).trans assets⟩

theorem apartOf {saveTemp} (stored : ∀ b ∈ blocks, HasRows (db.removeBlock block saveTemp) b) : SharesNone block blocks := by
  intro b mem
  have held := stored b mem
  refine ⟨fun same => ?_,fun tx member tx' member' same => ?_⟩
  · have header := held.header
    simp [BlockDB.removeBlock,getDel,same] at header
  · have row := (removedTransactions db.transactions).symm.trans (held.transactions tx member)
    rw [if_pos (mem_map.mpr ⟨tx',member',same.symm⟩)] at row
    cases row

end
end LiskEngine.Blockchain

namespace LiskEngine.Consensus
open Liskbft Blockchain Labi List

/-- What keeps the rows of the blocks: the IDs of a block that is added name nothing else, and a
block that is deleted shares none with the blocks below. -/
def Operation.KeepsRows (c : Executer) (n : Node) (o : Operation) : Prop :=
  (o.result c n).isOk → match o with
    | .processValidated _ _ block _ => NewNames block n.cache
    | .deleteBlock _ _ => ∀ tip ∈ n.cache.head?, SharesNone tip n.cache.tail

def Node.KeepsRows (c : Executer) : Node → List Operation → Prop
  | _, [] => True
  | n, o :: rest => o.KeepsRows c n ∧ (n.step c o).KeepsRows c rest

instance (c : Executer) (n : Node) (o : Operation) : Decidable (o.KeepsRows c n) := by
  unfold Operation.KeepsRows
  cases o <;> infer_instance

instance Node.decideKeepsRows (c : Executer) (n : Node) (ops : List Operation) : Decidable (n.KeepsRows c ops) :=
  match ops with
  | [] => .isTrue trivial
  | o :: rest => @instDecidableAnd _ _ _ (decideKeepsRows c (n.step c o) rest)

def Node.AllStored (n : Node) : Prop := ∀ block ∈ n.cache, HasRows n.db.blocks block

theorem rowsStep {c} {n : Node} (rows : Rows n.db.blocks n.cache) (o : Operation) : ((n.step c o).AllStored ↔ o.KeepsRows c n) ∧
    (o.KeepsRows c n → Rows (n.step c o).db.blocks (n.step c o).cache) := by
  unfold Node.step Operation.KeepsRows
  cases res : o.result c n with
  | error e => exact ⟨iff_of_true rows.stored (by simp [Except.isOk,Except.toBool]),fun _ => rows⟩
  | ok n' =>
    cases o with
    | processValidated abi now block removeTemp =>
      obtain ⟨_,store,v,step⟩ := processedOk res
      obtain ⟨events,temp,rfl⟩ := step.result
      exact ⟨⟨fun stored _ => namesOf stored,fun keeps => (rows.saved (keeps rfl)).stored⟩,fun keeps => rows.saved (keeps rfl)⟩
    | deleteBlock abi saveTemp =>
      obtain ⟨_,tip,diff,step⟩ := deletedOk res
      have cache := step.cache
      rw [cache] at rows
      have removed : SharesNone tip n'.cache → Rows n'.db.blocks n'.cache := fun apart => step.blocks ▸ rows.removed apart
      simp only [cache,head?_cons,tail_cons,Option.mem_def,Option.some.injEq,forall_eq']
      refine ⟨⟨fun stored _ => ?_,fun keeps => (removed (keeps rfl)).stored⟩,fun keeps => removed (keeps rfl)⟩
      unfold Node.AllStored at stored
      rw [step.blocks] at stored
      exact apartOf stored

theorem rowsRun {c} {n : Node} (rows : Rows n.db.blocks n.cache) (ops : List Operation) :
    (∀ done, done <+: ops → (n.run c done).AllStored) ↔ n.KeepsRows c ops := by
  induction ops generalizing n with
  | nil => simpa [Node.KeepsRows,Node.run,Node.AllStored] using rows.stored
  | cons o rest ih =>
    obtain ⟨stored,next⟩ := @rowsStep c n rows o
    constructor
    · intro all
      have first := stored.mp (all [o] (by simp))
      exact ⟨first,(ih (next first)).mp (fun done before => all (o::done) (cons_prefix_cons.mpr ⟨rfl,before⟩))⟩
    · rintro ⟨first,later⟩ done before
      cases done with
      | nil => exact rows.stored
      | cons o' done =>
        obtain ⟨rfl,more⟩ := cons_prefix_cons.mp before
        exact (ih (next first)).mpr later done more

theorem storedIff {c abi start genesis} (processed : processGenesisBlock c abi emptyNode genesis = .ok start) (ops : List Operation) :
    (∀ done, done <+: ops → (start.run c done).AllStored) ↔ NewNames genesis [] ∧ start.KeepsRows c ops := by
  obtain ⟨_,_,_,_,rfl⟩ := genesisResult processed
  have rows : Rows BlockDB.empty [] := ⟨by simp,fun _ _ => ⟨rfl,rfl⟩⟩
  constructor
  · intro all
    have names := namesOf (all [] ( nil_prefix ..))
    exact ⟨names,(rowsRun (rows.saved names) ops).mp all⟩
  · rintro ⟨names,keeps⟩
    exact (rowsRun (rows.saved names) ops).mpr keeps

theorem finality (c : Executer) (abi : ABI) (genesis : Block) (small : genesis.header.height ≤ maxUint32) (start : Node)
    (processed : processGenesisBlock c abi emptyNode genesis = .ok start) (earlier later : List Operation) :
    (∃ finalized finalized' v, (start.run c earlier).db.blocks.finalizedHeight = some finalized ∧
      ((start.run c earlier).run c later).db.blocks.finalizedHeight = some finalized' ∧ finalized ≤ finalized' ∧
      (newStore (start.run c earlier).db.state).getVotes = .ok v ∧ v.maxHeightPrecommited ≤ finalized' ∧
      (∀ block ∈ (start.run c earlier).cache, block.header.height ≤ finalized →
        block ∈ ((start.run c earlier).run c later).cache ∧
          (NewNames genesis [] → start.KeepsRows c (earlier ++ later) →
            ((start.run c earlier).run c later).db.blocks.getBlock block.header.id = some block)) ∧
      (∃ tip rest, (start.run c earlier).cache = tip :: rest ∧ ∀ height, finalized < height →
        height ≤ tip.header.height → ((start.run c earlier).db.stateDiff.get height).isSome) ∧
      ∀ abi saveTemp height, deleteBlock c abi (start.run c earlier) saveTemp ≠ .error (.diffNotFound height)) ∧
    ((∀ done, done <+: earlier ++ later → (start.run c done).AllStored) ↔
      NewNames genesis [] ∧ start.KeepsRows c (earlier ++ later)) := by
  have stored := storedIff processed (earlier ++ later)
  obtain ⟨finalized,_,inv,_⟩ := finalityRun (genesisProcessed small processed) earlier
  obtain ⟨finalized',raised,inv',kept⟩ := finalityRun inv later
  obtain ⟨v,votes,precommited⟩ := inv.undoable.precommitedLe
  obtain ⟨tip,rest,cache⟩ := inv.undoable.nonempty
  have undoable := inv.undoable
  rw [cache] at undoable
  refine ⟨⟨finalized,finalized',v,inv.stored,inv'.stored,raised,getVotesOk.mpr votes,precommited.trans raised,
    fun block mem low => ⟨kept block mem low,fun names keeps => ?_⟩,
    ⟨tip,rest,cache,fun height above within => undoable.diffStored above within⟩,fun abi saveTemp height =>
      diffFound inv abi saveTemp height⟩,stored⟩
  have last := stored.mpr ⟨names,keeps⟩ (earlier ++ later) (prefix_refl _)
  unfold Node.run at last
  rw [foldl_append] at last
  exact (last block (kept block mem low)).getBlock

def sampleNamedTransfer (id : UInt8) : Transaction := ⟨[id],"token","transfer",0,0,[],[],[]⟩

def sampleFirstBlock : Block := ⟨sampleHeader 1 1 10 0 1 0 0,[sampleNamedTransfer 1],[]⟩

def sampleBlocks (last : UInt8) : List Operation :=
  [.processValidated sampleABI 100 sampleFirstBlock false,
    .processValidated sampleABI 100 ⟨sampleHeader 2 2 20 1 1 1 1,[],[]⟩ false,
    .processValidated sampleABI 100 ⟨sampleHeader 3 3 30 2 1 2 2,[sampleNamedTransfer last],[]⟩ false]

theorem finalityOneDeleted : ((sampleNode.run sampleExecuter (sampleBlocks 2)).run sampleExecuter
    [.deleteBlock sampleABI false]).db.blocks.getBlock [1] = some sampleFirstBlock := by
  obtain ⟨⟨finalized,_,_,stored,_,_,_,_,kept,_⟩,_⟩ := finality sampleExecuter sampleABI ⟨sampleHeader 0 0 0 0 0 0 0,[],[]⟩ (by decide)
    sampleNode (by rfl) (sampleBlocks 2) [.deleteBlock sampleABI false]
  have second : (sampleNode.run sampleExecuter (sampleBlocks 2)).db.blocks.finalizedHeight = some 2 := by decide +kernel
  obtain rfl := Option.some.inj (stored.symm.trans second)
  exact (kept sampleFirstBlock (by decide +kernel) (by decide)).2 (by decide +kernel) (by decide +kernel)

theorem finalizedTransactionLost : (sampleNode.run sampleExecuter (sampleBlocks 1)).db.blocks.finalizedHeight = some 2 ∧
    (sampleNode.run sampleExecuter (sampleBlocks 1)).db.blocks.getBlock [1] = some sampleFirstBlock ∧
    ((sampleNode.run sampleExecuter (sampleBlocks 1)).run sampleExecuter
      [.deleteBlock sampleABI false]).db.blocks.getBlock [1] = none :=
  ⟨by decide +kernel,by decide +kernel,by decide +kernel⟩

end LiskEngine.Consensus
