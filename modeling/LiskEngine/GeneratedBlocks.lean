import LiskEngine.GeneratorRun

/-! A generated block on the node that generated it. Generator and consensus executer run
the same steps, and on an application whose answers do not depend on what differs between
the two runs the block is accepted exactly when it changes nothing about the validators:
the generator drops the validators that the application returns. -/
namespace LiskEngine
open List Option Except

section
open Liskbft Consensus Blockchain Labi
variable {σ : Type} (app : App σ)

def Labi.App.contextAt (block : Block) (context : σ) (txs : List Transaction) : σ :=
  txs.foldl (fun c tx => (app.executeTransaction (app.verifyTransaction c tx).2 block.assets block.header tx).2) context

def Labi.App.answersFrom (block : Block) (consensus : Labi.Consensus) (started : σ) : ABI :=
  let verified := (app.verifyAssets started block.assets).2
  let opened := (app.beforeTransactionsExecute verified block.assets consensus).2
  let context (i : Nat) := app.contextAt block opened (block.transactions.take i)
  let ended := context block.transactions.length
  let closed := (app.afterTransactionsExecute ended block.assets consensus block.transactions).2
  { initStateMachine := fun header => (app.initStateMachine header).map (fun _ => [])
    initGenesisState := fun _ => none
    verifyAssets := fun _ assets => (app.verifyAssets started assets).1
    beforeTransactionsExecute := fun _ assets consensus => (app.beforeTransactionsExecute verified assets consensus).1
    verifyTransaction := fun i _ tx => (app.verifyTransaction (context i) tx).1
    executeTransaction := fun i _ assets header tx =>
      (app.executeTransaction (app.verifyTransaction (context i) tx).2 assets header tx).1
    afterTransactionsExecute := fun _ assets consensus txs => (app.afterTransactionsExecute ended assets consensus txs).1
    commit := fun _ stateRoot expected => (app.commit closed stateRoot expected false).1
    revert := fun _ _ _ => none }

def Labi.App.answers (c : Engine) (store : ConsensusStore) (block : Block) : Option ABI := do
  let started ← app.initStateMachine block.header
  let before ← (c.liskBFT.beforeTransactionsExecute block.header store).toOption
  let consensus ← (getABIConsensus before block.header).toOption
  some (app.answersFrom block consensus started)

end

namespace Generation
open Liskbft Consensus Blockchain Labi Diffdb Contradiction

def Seals (header sealed' : BlockHeader) : Prop :=
  ∃ validatorsHash transactionRoot assetRoot eventRoot stateRoot id signature, sealed' =
    {filled header validatorsHash transactionRoot assetRoot eventRoot stateRoot with id := id, signature := signature}

structure Faithful {σ : Type} (app : App σ) : Prop where
  init : ∀ header sealed', Seals header sealed' → app.initStateMachine sealed' = app.initStateMachine header
  execute : ∀ context assets header sealed' tx, Seals header sealed' →
    app.executeTransaction context assets sealed' tx = app.executeTransaction context assets header tx
  sortedBefore : ∀ context assets consensus,
    app.beforeTransactionsExecute context (BlockAssets.sort assets) consensus = app.beforeTransactionsExecute context assets consensus
  sortedExecute : ∀ context assets header tx,
    app.executeTransaction context (BlockAssets.sort assets) header tx = app.executeTransaction context assets header tx
  sortedAfter : ∀ context assets consensus txs,
    app.afterTransactionsExecute context (BlockAssets.sort assets) consensus txs =
      app.afterTransactionsExecute context assets consensus txs
  verifies : ∀ context assets inserted, app.insertAssets context = (some assets, inserted) →
    app.verifyAssets context (BlockAssets.sort assets) = (some (), inserted)
  refused : ∀ context tx, (app.verifyTransaction context tx).1 ≠ some txVerifyResultOk →
    (app.verifyTransaction context tx).2 = context
  undone : ∀ context assets header tx,
    (∀ result events, (app.executeTransaction (app.verifyTransaction context tx).2 assets header tx).1 = some (result, events) →
      result = txExecuteResultInvalid) →
    (app.executeTransaction (app.verifyTransaction context tx).2 assets header tx).2 = context
  commits : ∀ context stateRoot root, (app.commit context stateRoot [] true).1 = some root →
    (app.commit context stateRoot root false).1.isSome = true

section
variable {σ : Type} {app : App σ} {header : BlockHeader} {assets : List BlockAsset}

inductive Included (app : App σ) (header : BlockHeader) (assets : List BlockAsset) :
    σ → List Transaction → List Blockchain.Event → σ → Prop where
  | nil (context) : Included app header assets context [] [] context
  | cons {context verified executed ended tx rest result events later}
      (ok : app.verifyTransaction context tx = (some txVerifyResultOk, verified))
      (ran : app.executeTransaction verified assets header tx = (some (result, events), executed))
      (next : Included app header assets executed rest later ended) :
      Included app header assets context (tx :: rest) (events ++ later) ended

theorem Included.sealed' (faithful : Faithful app) {sealed'} (seals : Seals header sealed')
    (included : Included app header assets context txs events ended) :
    Included app sealed' (BlockAssets.sort assets) context txs events ended := by
  induction included with
  | nil context => exact .nil context
  | cons ok ran next ih =>
    rw [← faithful.sortedExecute,← faithful.execute _ _ _ _ _ seals] at ran
    exact .cons ok ran ih

structure Selected (app : App σ) (header : BlockHeader) (assets : List BlockAsset) (text : Codec.Normalizer) (maxSize : Nat)
    (start : StateExecuter σ) (txs : List Transaction) (executer : StateExecuter σ) : Prop where
  included : ∃ later, Included app header assets start.context txs later executer.context ∧
    executer.events = start.events ++ later
  fits : (txs.map (size text)).sum ≤ maxSize

section
variable {text : Codec.Normalizer} {sha : Bytes → Bytes} {maxSize : Nat} {start : StateExecuter σ}

variable (faithful : Faithful app)
include faithful

end

def Steps.blockEvents (t : Steps σ) : List Blockchain.Event := Event.updateIndex (t.executer.events ++ t.resp.events)

structure Repeats (app : App σ) (g : Generator) (s : Situation) (t : Steps σ) (block : Block) (abi : ABI) : Prop where
  answers : app.answers g.engine s.store block = some abi
  started : abi.initStateMachine block.header = some []
  verified : abi.verifyAssets [] block.assets = some ()
  voted : g.engine.liskBFT.beforeTransactionsExecute block.header s.store = .ok t.store
  consensus : getABIConsensus t.store block.header = .ok t.consensus
  opened : abi.beforeTransactionsExecute [] block.assets t.consensus = some t.events
  transactions : ∃ later, executeTransactions abi [] block 0 block.transactions = .ok later ∧ t.executer.events = t.events ++ later
  closed : abi.afterTransactionsExecute [] block.assets t.consensus block.transactions = some t.resp
  committed : (abi.commit [] t.last.stateRoot block.header.stateRoot).isSome = true
  validators : ∃ params, API.getBFTParameters t.store (u32 (block.header.height + 1)) = .ok params ∧
    block.header.validatorsHash = params.validatorsHash

theorem Repeats.executed (repeats : Repeats app g s t block abi) :
    execute g.engine.liskBFT abi [] s.store block =
      if t.resp.preCommitThreshold ≠ 0 ∨ t.resp.certificateThreshold ≠ 0 ∨ t.resp.nextValidators.length ≠ 0 then
        (do let store ← setNextValidators g.engine.liskBFT t.store t.resp
            .ok (store,t.blockEvents))
      else .ok (t.store,t.blockEvents) := by
  obtain ⟨later,ran,listed⟩ := repeats.transactions
  rw [execute,thenOk (liftVotesSome repeats.voted),thenOk repeats.consensus,repeats.opened,thenOk (callABISome _),thenOk ran,
    repeats.closed,thenOk (callABISome _),Steps.blockEvents,listed]

end

end Generation
end LiskEngine
