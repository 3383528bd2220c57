import LiskEngine.BlockValidate
import LiskEngine.Finality
import LiskEngine.BftHistory

/-! What the header of an accepted block commits to. Three of the roots are compared on
the way to acceptance; the event root, the state root, the implied prevotes and the
results of the transactions are not, and are right exactly when the application and the
generator of the block make them so. -/
namespace LiskEngine.Consensus
open Liskbft Blockchain Labi List Contradiction

def txExecuteResultInvalid : Int := -1

structure Ran (c : Executer) (abi : ABI) (n : Node) (block : Block) (contextID : Bytes) (before after : ConsensusStore)
    (consensus : Labi.Consensus) (events : List Blockchain.Event) (stateRoot : Bytes) : Prop where
  context : abi.initStateMachine block.header = some contextID
  voted : c.engine.liskBFT.beforeTransactionsExecute block.header (newStore n.db.state) = .ok before
  requested : getABIConsensus before block.header = .ok consensus
  executed : execute c.engine.liskBFT abi contextID (newStore n.db.state) block = .ok (after, events)
  committed : ∃ last, n.cache.head? = some last ∧
    abi.commit contextID last.header.stateRoot block.header.stateRoot = some stateRoot

def NoneInvalid (abi : ABI) (contextID : Bytes) (block : Block) : Prop :=
  ∀ i tx, block.transactions[i]? = some tx → ∀ result events,
    abi.executeTransaction i contextID block.assets block.header tx = some (result, events) → result ≠ txExecuteResultInvalid

structure HeaderCommits (text : Codec.Normalizer) (sha : Bytes → Bytes) (abi : ABI) (block : Block) (contextID : Bytes)
    (before after : ConsensusStore) (events : List Blockchain.Event) (stateRoot : Bytes) : Prop where
  transactions : block.header.transactionRoot = Rmt.calculateRoot sha (block.transactions.map (·.id))
  assets : BlockAssets.getRoot text sha block.assets = some block.header.assetRoot
  events : calculateEventRoot text sha events = .ok block.header.eventRoot
  state : block.header.stateRoot = stateRoot
  validators : ∃ params, API.getBFTParameters after (u32 (block.header.height + 1)) = .ok params ∧
    block.header.validatorsHash = params.validatorsHash
  prevotes : impliesMaximalPrevotes before block.header = .ok block.header.impliesMaxPrevotes
  results : NoneInvalid abi contextID block

/-- The events of the application's answers, in the order of the calls. -/
def answeredEvents (abi : ABI) (contextID : Bytes) (block : Block) (consensus : Labi.Consensus) : List Blockchain.Event :=
  Blockchain.Event.updateIndex
    ((abi.beforeTransactionsExecute contextID block.assets consensus).getD [] ++
      (block.transactions.mapIdx (fun i tx =>
        ((abi.executeTransaction i contextID block.assets block.header tx).map Prod.snd).getD [])).flatten ++
      ((abi.afterTransactionsExecute contextID block.assets consensus block.transactions).map (·.events)).getD [])

/-- Whether the block above the one that the header acknowledges is the generator's, given the generators of the
window before the header; one out of the window counts as such. -/
def impliedPrevotes (generators : List Bytes) (header : BlockHeader) : Bool :=
  decide (header.maxHeightGenerated < header.height) &&
    ((header.generatorAddress :: generators)[header.height - header.maxHeightGenerated - 1]?).all (· == header.generatorAddress)

/-- The application answers Commit with the expected root only and no execution with Invalid; the generator of the block
computed the event root from the answers and the implied prevotes from the window of the state before the block. -/
structure Honest (c : Executer) (abi : ABI) (text : Codec.Normalizer) (sha : Bytes → Bytes) (n : Node) (block : Block)
    (contextID : Bytes) (consensus : Labi.Consensus) : Prop where
  commit : ∀ last root, n.cache.head? = some last →
    abi.commit contextID last.header.stateRoot block.header.stateRoot = some root → root = block.header.stateRoot
  results : NoneInvalid abi contextID block
  events : calculateEventRoot text sha (answeredEvents abi contextID block consensus) = .ok block.header.eventRoot
  prevotes : ∀ v, (newStore n.db.state).getVotes = .ok v → block.header.impliesMaxPrevotes =
    impliedPrevotes ((v.blockBFTInfos.take (c.engine.liskBFT.maxLengthBlock - 1)).map (·.generatorAddress)) block.header

theorem executeTransactionsAnswered {abi : ABI} {contextID block i txs events}
    (ran : executeTransactions abi contextID block i txs = .ok events) :
    events = (txs.mapIdx (fun j tx =>
      ((abi.executeTransaction (i+j) contextID block.assets block.header tx).map Prod.snd).getD [])).flatten := by
  induction txs generalizing i events with
  | nil =>
    cases ran
    rfl
  | cons tx rest ih =>
    obtain ⟨_,_,ran⟩ := bindOk ran
    split at ran
    · cases ran
    obtain ⟨⟨_,first⟩,answer,ran⟩ := bindOk ran
    obtain ⟨later,ran',ran⟩ := bindOk ran
    cases ran
    simp [mapIdx_cons,ih ran',callABIOk answer,Nat.add_assoc,Nat.add_comm 1]

theorem executeAnswered {m : Module} {abi : ABI} {contextID store block after events before consensus}
    (ran : execute m abi contextID store block = .ok (after,events)) (voted : m.beforeTransactionsExecute block.header store = .ok before)
    (requested : getABIConsensus before block.header = .ok consensus) : events = answeredEvents abi contextID block consensus := by
  obtain ⟨_,voted',ran⟩ := bindOk ran
  cases voted.symm.trans (liftVotesOk voted')
  obtain ⟨_,requested',ran⟩ := bindOk ran
  cases requested.symm.trans requested'
  obtain ⟨first,opened,ran⟩ := bindOk ran
  obtain ⟨middle,txs,ran⟩ := bindOk ran
  obtain ⟨resp,closed,ran⟩ := bindOk ran
  have all : Blockchain.Event.updateIndex (first ++ middle ++ resp.events) = answeredEvents abi contextID block consensus := by
    rw [answeredEvents,callABIOk opened,callABIOk closed,executeTransactionsAnswered txs]
    simp
  rw [← all]
  split at ran
  · obtain ⟨_,_,ran⟩ := bindOk ran
    cases ran
    rfl
  · cases ran
    rfl

theorem impliedByWindow {store : ConsensusStore} {v header rest} (votes : store.getVotes = .ok v)
    (window : windowHeaders v = newBFTBlockHeader header :: rest) :
    impliesMaximalPrevotes store header = .ok (impliedPrevotes (rest.map (·.generatorAddress)) header) := by
  have entry (j : Nat) : (v.blockBFTInfos[j]?).map BFTBlockHeader.partialHeader = (newBFTBlockHeader header :: rest)[j]? := by
    rw [← getElem?_map,← window]
    rfl
  have implied (j : Nat) : ((header.generatorAddress :: rest.map (·.generatorAddress))[j]?).all (· == header.generatorAddress) =
      (v.blockBFTInfos[j]?).all (·.generatorAddress == header.generatorAddress) := by
    have own : header.generatorAddress :: rest.map (·.generatorAddress) = (newBFTBlockHeader header :: rest).map (·.generatorAddress) := rfl
    rw [own,getElem?_map,← entry]
    cases v.blockBFTInfos[j]? <;> rfl
  unfold impliesMaximalPrevotes impliedPrevotes
  rw [thenOk (liftVotesSome votes),implied]
  cases infos : v.blockBFTInfos with
  | nil =>
    rw [windowHeaders,infos] at window
    cases window
  | cons latest others =>
    have top : latest.height = header.height := by
      rw [windowHeaders,infos,map_cons,cons.injEq] at window
      exact congrArg BFTPartialBlockHeader.height window.1
    simp only [top,ne_eq,not_true,if_false]
    by_cases ahead : header.maxHeightGenerated ≥ header.height
    · rw [if_pos ahead,decide_eq_false (by omega),Bool.false_and]
    · rw [if_neg ahead,decide_eq_true (by omega),Bool.true_and]
      cases (latest :: others)[header.height - header.maxHeightGenerated - 1]? <;> rfl

theorem impliedBefore {m : Module} {header store before v} (coherent : Diffdb.Database.Coherent store.votes)
    (voted : m.beforeTransactionsExecute header store = .ok before) (votes : store.getVotes = .ok v) :
    impliesMaximalPrevotes before header =
      .ok (impliedPrevotes ((v.blockBFTInfos.take (m.maxLengthBlock - 1)).map (·.generatorAddress)) header) := by
  obtain ⟨v0,read,voted⟩ := bindOk voted
  cases votes.symm.trans read
  obtain ⟨v1,inserted,voted⟩ := bindOk voted
  obtain ⟨c,_,voted⟩ := bindOk voted
  obtain ⟨v2,counted,voted⟩ := bindOk voted
  obtain ⟨v3,prevoted,voted⟩ := bindOk voted
  obtain ⟨v4,precommited,voted⟩ := bindOk voted
  cases voted
  have window : windowHeaders (v4.updateMaxHeightCertified header) =
      newBFTBlockHeader header :: (v.blockBFTInfos.take (m.maxLengthBlock - 1)).map BFTBlockHeader.partialHeader := by
    rw [(headersUpdated counted prevoted precommited).1]
    unfold BFTVotes.insertBlockBFTInfo at inserted
    split at inserted
    · cases inserted
    rename_i room size
    cases inserted
    rw [size]
    rfl
  have read : (store.votes.set () (v4.updateMaxHeightCertified header)).view () = some _ :=
    (Diffdb.Database.setView coherent () _ ()).trans (if_pos rfl)
  refine (impliedByWindow (getVotesOk.mpr ?_) window).trans (by rw [map_map]; rfl)
  exact read

theorem ranAccepted (ok : processValidated c abi now n block removeTemp = .ok n') :
    ∃ cid before after consensus events stateRoot, Ran c abi n block cid before after consensus events stateRoot ∧
      ∃ params, API.getBFTParameters after (u32 (block.header.height+1)) = .ok params ∧
        block.header.validatorsHash = params.validatorsHash := by
  obtain ⟨cid,after,events,_,_,passes,_,_⟩ := passesOk ok
  obtain ⟨before,voted,rest⟩ := bindOk passes.executed
  obtain ⟨consensus,requested,_⟩ := bindOk rest
  obtain ⟨last,stateRoot,hit,com⟩ := passes.committed
  obtain ⟨params,read,same⟩ := passes.params
  exact ⟨cid,before,after,consensus,events,stateRoot,
    ⟨passes.started,liftVotesOk voted,requested,passes.executed,last,hit,com⟩,params,read,same.symm⟩

theorem commitmentsIff (c : Executer) (abi : ABI) (text : Codec.Normalizer) (sha : Bytes → Bytes) (now : Nat) (n n' : Node)
    (block : Block) (removeTemp : Bool) (valid : block.validate text sha = .ok ())
    (accepted : processValidated c abi now n block removeTemp = .ok n') :
    ∃ contextID before after consensus events stateRoot, Ran c abi n block contextID before after consensus events stateRoot ∧
      (HeaderCommits text sha abi block contextID before after events stateRoot ↔ Honest c abi text sha n block contextID consensus) := by
  obtain ⟨contextID,before,after,consensus,events,stateRoot,ran,validators⟩ := ranAccepted accepted
  obtain ⟨transactions,assets⟩ := validateOk valid
  have answered := executeAnswered ran.executed ran.voted ran.requested
  obtain ⟨last,tip,committed⟩ := ran.committed
  have implied := fun v => @impliedBefore c.engine.liskBFT block.header _ before v (Diffdb.Database.newCoherent _) ran.voted
  refine ⟨contextID,before,after,consensus,events,stateRoot,ran,fun commits => ⟨fun last' root tip' answer => ?_,commits.results,?_,
    fun v votes => ?_⟩,fun honest => ⟨transactions,assets,?_,?_,validators,?_,honest.results⟩⟩
  · cases tip.symm.trans tip'
    cases committed.symm.trans answer
    exact commits.state.symm
  · rw [← answered]
    exact commits.events
  · exact Except.ok.inj (commits.prevotes.symm.trans (implied v votes))
  · rw [answered]
    exact honest.events
  · exact (honest.commit last stateRoot tip committed).symm
  · obtain ⟨v,votes,_⟩ := bindOk ran.voted
    rw [implied v votes,honest.prevotes v votes]

def samplePlain : Codec.Normalizer := .plain

def sampleAddress : Bytes := List.replicate 20 1

def answering (result : Int) (stateRoot : Bytes) : ABI :=
  {sampleABI with
    initGenesisState := fun _ => some ⟨[],1,1,[⟨sampleAddress,1,[],[1]⟩]⟩
    executeTransaction := fun _ _ _ _ _ => some (result, [⟨"token","transfer",[],[[1]],1,0⟩])
    commit := fun _ _ _ => some stateRoot}

def sampleOrigin : Block := ⟨{sampleHeader 0 0 0 0 0 0 0 with id := List.replicate 32 0},[],[]⟩

def sampleTip : Node :=
  match processGenesisBlock sampleExecuter (answering 1 []) emptyNode sampleOrigin with
  | .ok n => n
  | .error _ => emptyNode

def sampleTransfer : Blockchain.Transaction := ⟨[5],"token","transfer",0,1,[],[],[]⟩

def sampleTransferEvents : List Blockchain.Event := [⟨"token","transfer",[],[[1]],1,0⟩]

def sampleCommitting (eventRoot stateRoot : Bytes) (impliesMaxPrevotes : Bool) : Block :=
  ⟨{sampleHeader 1 1 10 0 1 0 0 with
      previousBlockID := List.replicate 32 0, generatorAddress := sampleAddress, signature := List.replicate 64 0,
      transactionRoot := Rmt.calculateRoot Smt.sampleSha [[5]], assetRoot := Rmt.calculateRoot Smt.sampleSha [],
      eventRoot := eventRoot, stateRoot := stateRoot, impliesMaxPrevotes := impliesMaxPrevotes},[sampleTransfer],[]⟩

def sampleEventRoot : Bytes := ((calculateEventRoot samplePlain Smt.sampleSha sampleTransferEvents).toOption).getD []

def sampleCommitted : Block := sampleCommitting sampleEventRoot [9] true

def sampleRun (abi : ABI) (block : Block) : Except ExecuteError (List Blockchain.Event × Bool) := do
  let (_, events) ← execute sampleEngine.liskBFT abi [] (newStore sampleTip.db.state) block
  let before ← liftVotes (sampleEngine.liskBFT.beforeTransactionsExecute block.header (newStore sampleTip.db.state))
  let implied ← impliesMaximalPrevotes before block.header
  .ok (events, implied)

theorem commitmentsIffSample : ∃ contextID before after consensus events stateRoot,
    Ran sampleExecuter (answering 1 [9]) sampleTip sampleCommitted contextID before after consensus events stateRoot ∧
      HeaderCommits samplePlain Smt.sampleSha (answering 1 [9]) sampleCommitted contextID before after events stateRoot := by
  obtain ⟨n',accepted⟩ : ∃ n', processValidated sampleExecuter (answering 1 [9]) 100 sampleTip sampleCommitted false = .ok n' := by
    have found : (processValidated sampleExecuter (answering 1 [9]) 100 sampleTip sampleCommitted false).toOption.isSome = true := by
      decide +kernel
    cases run : processValidated sampleExecuter (answering 1 [9]) 100 sampleTip sampleCommitted false with
    | error e => rw [run] at found; cases found
    | ok n' => exact ⟨n',rfl⟩
  obtain ⟨contextID,before,after,consensus,events,stateRoot,ran,iff⟩ := commitmentsIff sampleExecuter (answering 1 [9]) samplePlain
    Smt.sampleSha 100 sampleTip n' sampleCommitted false (by decide +kernel) accepted
  have implied : (newStore sampleTip.db.state).getVotes.map (fun v => impliedPrevotes
      ((v.blockBFTInfos.take (sampleExecuter.engine.liskBFT.maxLengthBlock - 1)).map (·.generatorAddress)) sampleCommitted.header) =
        .ok true := by decide +kernel
  refine ⟨contextID,before,after,consensus,events,stateRoot,ran,iff.mpr
    ⟨fun _ _ _ answer => (Option.some.inj answer).symm,fun i tx _ result events' answered => ?_,?_,fun v votes => ?_⟩⟩
  · cases answered
    decide
  · show calculateEventRoot samplePlain Smt.sampleSha sampleTransferEvents = _
    decide +kernel
  · rw [votes] at implied
    exact (Except.ok.inj implied).symm

theorem commitmentsUnchecked : (sampleCommitting [] [] false).validate samplePlain Smt.sampleSha = .ok () ∧
    (processValidated sampleExecuter (answering txExecuteResultInvalid [9]) 100 sampleTip (sampleCommitting [] [] false)
      false).toOption.isSome = true ∧
    sampleRun (answering txExecuteResultInvalid [9]) (sampleCommitting [] [] false) = .ok (sampleTransferEvents, true) ∧
    calculateEventRoot samplePlain Smt.sampleSha sampleTransferEvents ≠ .ok [] := by
  decide +kernel

end LiskEngine.Consensus
