import LiskEngine.BftReachable
import LiskEngine.Execute

/-! Finality on one node. Every state between the finalized height and the tip can
be undone with the stored diffs, and none of them had precommitted more than what
is finalized. -/
namespace LiskEngine.Consensus
open Liskbft Blockchain Labi Diffdb List Option OrderedMap Database

theorem liftVotesOk {α : Type} {x} {a : α} (ok : liftVotes x = .ok a) : x = .ok a := by
  cases x with
  | error e => cases ok
  | ok b => cases ok; rfl

theorem liftVotesSome {α : Type} {x} {a : α} (ok : x = .ok a) : liftVotes x = .ok a := by
  rw [ok]
  rfl

theorem callABIOk {α : Type} {x} {a : α} (ok : callABI x = .ok a) : x = some a := by
  cases x with
  | none => cases ok
  | some b => cases ok; rfl

theorem callABISome {α : Type} (a : α) : callABI (some a) = .ok a := rfl

theorem foundOk {α : Type} {x e} {a : α} (ok : found x e = .ok a) : x = some a := by
  cases x with
  | none => cases ok
  | some b => cases ok; rfl

theorem ensureOk {cond e u} (ok : ensure cond e = .ok u) : cond = true := by
  unfold ensure at ok
  split at ok
  · assumption
  · cases ok

theorem liftConsensusOk {α : Type} {x} {a : α} (ok : liftConsensus x = .ok a) : x = .ok a := by
  cases x with
  | error e => cases ok
  | ok b => cases ok; rfl

structure Overlays (state : StateDB) (store : ConsensusStore) : Prop where
  votes : Database.Coherent store.votes
  params : Database.Coherent store.params
  keys : Database.Coherent store.keys
  votesOver : store.votes.store = state.votes
  paramsOver : store.params.store = state.params
  keysOver : store.keys.store = state.keys

section Overlays
variable {state : StateDB} {store store' : ConsensusStore}

theorem newOverlays (state : StateDB) : Overlays state (newStore state) :=
  ⟨newCoherent _,newCoherent _,newCoherent _,rfl,rfl,rfl⟩

section
variable (on : Overlays state store)
include on

theorem Overlays.setVotes (v : BFTVotes) : Overlays state (store.setVotes v) :=
  ⟨setCoherent on.votes _ _,on.params,on.keys,(setStore _ _ _).trans on.votesOver,on.paramsOver,on.keysOver⟩

theorem Overlays.setParams (height : Nat) (p : BFTParams) : Overlays state {store with params := store.params.set height p} :=
  ⟨on.votes,setCoherent on.params _ _,on.keys,on.votesOver,(setStore _ _ _).trans on.paramsOver,on.keysOver⟩

theorem Overlays.setKeys (height : Nat) (gens : List Generator) : Overlays state {store with keys := store.keys.set height gens} :=
  ⟨on.votes,on.params,setCoherent on.keys _ _,on.votesOver,on.paramsOver,(setStore _ _ _).trans on.keysOver⟩

theorem Overlays.delete (height : Nat) : Overlays state {store with
      params := deleteBFTParams store.params height, keys := deleteGeneratorKeys store.keys height} := by
  obtain ⟨params,ps,_⟩ := deleteBelowSpec on.params height
  obtain ⟨keys,keysStore,_⟩ := deleteBelowSpec on.keys height
  exact ⟨on.votes,params,keys,on.votesOver,ps.trans on.paramsOver,keysStore.trans on.keysOver⟩

theorem Overlays.reverted : (state.commit store).revertDiff (storeDiff store) = state := by
  have votes := revertApplied on.votes (List.Perm.refl _)
  have params := revertApplied on.params (List.Perm.refl _)
  have keys := revertApplied on.keys (List.Perm.refl _)
  rw [on.votesOver] at votes
  rw [on.paramsOver] at params
  rw [on.keysOver] at keys
  unfold StateDB.revertDiff StateDB.commit storeDiff
  rw [commit,commit,commit,votes,params,keys]

theorem Overlays.committedVotes : (state.commit store).votes.get () = store.votes.view () := by
  have votes := commitApplied on.votes (List.Perm.refl _) ()
  rw [on.votesOver] at votes
  exact votes

theorem Overlays.before {m : Module} {n} (ok : m.beforeTransactionsExecute n store = .ok store') : Overlays state store' := by
  obtain ⟨v0,_,ok⟩ := bindOk ok
  obtain ⟨v1,_,ok⟩ := bindOk ok
  obtain ⟨c,_,ok⟩ := bindOk ok
  obtain ⟨v2,_,ok⟩ := bindOk ok
  obtain ⟨v3,_,ok⟩ := bindOk ok
  obtain ⟨v4,_,ok⟩ := bindOk ok
  cases ok
  exact (on.setVotes _).delete _

end

theorem setParametersVotes {m pre cert vals}
    (ok : API.setBFTParameters m store pre cert vals = .ok store') :
    store' = store ∨ ∃ v active height p, store.getVotes = .ok v ∧
      store' = ConsensusStore.setVotes {store with params := store.params.set height p}
        {v with activeValidatorsVoteInfo := active} := by
  unfold API.setBFTParameters at ok
  split at ok
  · cases ok
  obtain ⟨aggregate,_,ok⟩ := bindOk ok
  split at ok
  · cases ok
  split at ok
  · cases ok
  obtain ⟨v,read,ok⟩ := bindOk ok
  split at ok
  · cases ok
    exact .inl rfl
  · cases ok
    exact .inr ⟨v,_,_,_,read,rfl⟩

theorem Overlays.nextValidators (on : Overlays state store) {m} {resp : ExecuteResponse}
    (ok : setNextValidators m store resp = .ok store') : Overlays state store' ∧ ∀ v, store.votes.view () = some v →
      ∃ v', store'.votes.view () = some v' ∧ v'.maxHeightPrecommited = v.maxHeightPrecommited := by
  obtain ⟨middle,params,ok⟩ := bindOk ok
  obtain ⟨_,_,keys⟩ := bindOk (liftVotesOk ok)
  cases keys
  rcases setParametersVotes (liftVotesOk params) with rfl | ⟨v,active,height,p,read,rfl⟩
  · exact ⟨on.setKeys _ _,fun v votes => ⟨v,votes,rfl⟩⟩
  refine ⟨((on.setParams _ _).setVotes _).setKeys _ _,fun w votes => ?_⟩
  have same : v = w := some.inj ((getVotesOk.mp read).symm.trans votes)
  subst same
  exact ⟨{v with activeValidatorsVoteInfo := active},(setView on.votes () _ ()).trans (if_pos rfl),rfl⟩

theorem Overlays.executed (on : Overlays state store) {m : Module} {abi : ABI} {cid block events}
    (ok : execute m abi cid store block = .ok (store',events)) : Overlays state store' := by
  obtain ⟨store1,before,ok⟩ := bindOk ok
  have on1 := on.before (liftVotesOk before)
  obtain ⟨_,_,ok⟩ := bindOk ok
  obtain ⟨_,_,ok⟩ := bindOk ok
  obtain ⟨_,_,ok⟩ := bindOk ok
  obtain ⟨resp,_,ok⟩ := bindOk ok
  split at ok
  · obtain ⟨store2,next,ok⟩ := bindOk ok
    cases ok
    exact (on1.nextValidators next).1
  · cases ok
    exact on1

end Overlays

/-- The state of the tip has precommitted no more than what is finalized, and above
the finalized height the stored diff leads to a state of the block before. -/
inductive Undoable (finalized : Nat) (diffs : OrderedMap Nat StateDiff) : StateDB → List Block → Prop
  | final {state : StateDB} {tip : Block} {rest : List Block} (v : BFTVotes) (votes : state.votes.get () = some v)
      (precommited : v.maxHeightPrecommited ≤ finalized) (low : tip.header.height ≤ finalized) :
      Undoable finalized diffs state (tip :: rest)
  | undo {state : StateDB} {tip previous : Block} {rest : List Block} (v : BFTVotes)
      (votes : state.votes.get () = some v) (precommited : v.maxHeightPrecommited ≤ finalized) (diff : StateDiff)
      (high : finalized < tip.header.height) (next : tip.header.height = previous.header.height + 1)
      (stored : diffs.get tip.header.height = some diff)
      (before : Undoable finalized diffs (state.revertDiff diff) (previous :: rest)) :
      Undoable finalized diffs state (tip :: previous :: rest)

section Undoable
variable {finalized : Nat} {diffs : OrderedMap Nat StateDiff} {state : StateDB} {chain : List Block}

theorem Undoable.precommitedLe (undoable : Undoable finalized diffs state chain) :
    ∃ v, state.votes.get () = some v ∧ v.maxHeightPrecommited ≤ finalized := by
  cases undoable with
  | final v votes precommited _ | undo v votes precommited _ _ _ _ _ => exact ⟨v,votes,precommited⟩

theorem Undoable.nonempty (undoable : Undoable finalized diffs state chain) : ∃ tip rest, chain = tip::rest := by
  cases undoable <;> exact ⟨_,_,rfl⟩

theorem Undoable.diffStored {tip rest} (undoable : Undoable finalized diffs state (tip::rest)) {height}
    (above : finalized < height) (fit : height ≤ tip.header.height) : (diffs.get height).isSome := by
  generalize shape : tip::rest = chain at undoable
  induction undoable generalizing tip rest with
  | final v votes precommited low =>
    cases shape
    omega
  | undo v votes precommited diff high next stored before ih =>
    cases shape
    rcases lt_or_eq_of_le fit with smaller | same
    · exact ih (by omega) rfl
    · rw [same,stored]
      rfl

theorem Undoable.raise (undoable : Undoable finalized diffs state chain) {fin' diffs'} (raised : finalized ≤ fin')
    (kept : ∀ block ∈ chain.head?, ∀ height, fin' < height → height ≤ block.header.height → diffs'.get height = diffs.get height) :
    Undoable fin' diffs' state chain := by
  induction undoable with
  | final v votes precommited low => exact .final v votes (by omega) (by omega)
  | undo v votes precommited diff high next stored before ih =>
    rename_i tip prev rest
    have keptTip := kept tip rfl
    by_cases low : tip.header.height ≤ fin'
    · exact .final v votes (by omega) low
    refine .undo v votes (by omega) diff (by omega) next ?_ (ih (fun block isHead height above fit => ?_))
    · rw [keptTip _ (by omega) (le_refl _),stored]
    · cases isHead
      exact keptTip height above (by omega)

end Undoable

theorem delKeysGet {V : Type} (keys : List (Nat × V)) (diffs : OrderedMap Nat V) {height} (other : ∀ kv ∈ keys, kv.1 ≠ height) :
    (keys.foldl (fun diffs kv => diffs.del kv.1) diffs).get height = diffs.get height := by
  induction keys generalizing diffs with
  | nil => rfl
  | cons kv rest ih =>
    rw [foldl_cons,ih _ (fun kv mem => other kv (.tail _ mem)),getDel,if_neg (other kv (.head _)).symm]

theorem finalizeSpec (cur precommited : Nat) (stored diffs : OrderedMap Nat StateDiff) :
    let res := finalize cur precommited stored diffs
    res.1 = max cur precommited ∧ ∀ height, res.1 < height → res.2.get height = diffs.get height := by
  unfold finalize
  split
  · rename_i more
    refine ⟨(max_eq_right (le_of_lt more)).symm,fun height above => delKeysGet _ _ (fun kv mem => ?_)⟩
    have below : kv.1 < precommited := by simpa using (mem_filter.mp mem).2
    omega
  · rename_i notMore
    exact ⟨(max_eq_left (not_lt.mp notMore)).symm,fun height _ => rfl⟩

structure FinalityInv (n : Node) (finalized : Nat) : Prop where
  stored : n.db.blocks.finalizedHeight = some finalized
  small : ∀ tip ∈ n.cache.head?, tip.header.height ≤ maxUint32
  undoable : Undoable finalized n.db.stateDiff n.db.state n.cache

structure Passes (c : Executer) (abi : ABI) (now : Nat) (state : StateDB) (chain : List Block) (block : Block)
    (contextID : Bytes) (store : ConsensusStore) (events : List Blockchain.Event) (v : BFTVotes) : Prop where
  verified : verifyBlock c.engine now (chain.map (·.header)) (newStore state) block.header = .ok ()
  started : abi.initStateMachine block.header = some contextID
  assets : abi.verifyAssets contextID block.assets = some ()
  executed : execute c.engine.liskBFT abi contextID (newStore state) block = .ok (store, events)
  params : ∃ p, API.getBFTParameters store (u32 (block.header.height + 1)) = .ok p ∧
    p.validatorsHash = block.header.validatorsHash
  few : events.length ≤ maxEventsPerBlock
  votes : store.getVotes = .ok v
  committed : ∃ last root, chain.head? = some last ∧
    abi.commit contextID last.header.stateRoot block.header.stateRoot = some root

def withPassed (c : Executer) (n : Node) (block : Block) (store : ConsensusStore) (events : List Blockchain.Event) (v : BFTVotes)
    (finalized : Nat) (removeTemp : Bool) : Node :=
  let final := finalize finalized v.maxHeightPrecommited n.db.stateDiff (n.db.stateDiff.set block.header.height (storeDiff store))
  addBlock c n (n.db.state.commit store) final.2 block events final.1 removeTemp

section
variable {c : Executer} {abi : ABI} {now : Nat} {n n' : Node} {block : Block} {removeTemp : Bool}

theorem passesOk (ok : processValidated c abi now n block removeTemp = .ok n') :
    ∃ cid store events v finalized, Passes c abi now n.db.state n.cache block cid store events v ∧
      n.db.blocks.finalizedHeight = some finalized ∧ n' = withPassed c n block store events v finalized removeTemp := by
  obtain ⟨_,verified,ok⟩ := bindOk ok
  obtain ⟨cid,started,ok⟩ := bindOk ok
  obtain ⟨_,assets,ok⟩ := bindOk ok
  obtain ⟨⟨store,events⟩,ran,ok⟩ := bindOk ok
  obtain ⟨p,params,ok⟩ := bindOk ok
  obtain ⟨_,hash,ok⟩ := bindOk ok
  obtain ⟨_,few,ok⟩ := bindOk ok
  obtain ⟨finalized,stored,ok⟩ := bindOk ok
  obtain ⟨heights,read,ok⟩ := bindOk ok
  obtain ⟨v,votes,heightsEq⟩ := bindOk (liftVotesOk read)
  cases heightsEq
  obtain ⟨last,isLast,ok⟩ := bindOk ok
  obtain ⟨root,com,ok⟩ := bindOk ok
  cases ok
  exact ⟨cid,store,events,v,finalized,
    ⟨liftConsensusOk verified,callABIOk started,callABIOk assets,ran,⟨p,liftVotesOk params,by simpa using ensureOk hash⟩,
      by simpa using ensureOk few,votes,⟨last,root,foundOk isLast,callABIOk com⟩⟩,foundOk stored,rfl⟩

theorem Passes.accepted {cid} {store : ConsensusStore} {events v finalized}
    (passes : Passes c abi now n.db.state n.cache block cid store events v)
    (stored : n.db.blocks.finalizedHeight = some finalized) (removeTemp : Bool) :
    processValidated c abi now n block removeTemp = .ok (withPassed c n block store events v finalized removeTemp) := by
  obtain ⟨p,read,hash⟩ := passes.params
  obtain ⟨last,root,tip,com⟩ := passes.committed
  have heights : API.getBFTHeights store = .ok (v.maxHeightPrevoted,v.maxHeightPrecommited,v.maxHeightCertified) := by
    rw [API.getBFTHeights,thenOk passes.votes]
  have holds (cond : Bool) (e : ExecuteError) (holds : cond = true) : ensure cond e = .ok () := by
    rw [ensure,if_pos holds]
  rw [processValidated]
  rw [passes.verified,thenOk (rfl : liftConsensus (.ok ()) = .ok ()),passes.started,thenOk (callABISome _),passes.assets,
    thenOk (callABISome _),thenOk passes.executed]
  simp only
  rw [thenOk (liftVotesSome read),thenOk (holds _ _ (beq_iff_eq.mpr hash)),thenOk (holds _ _ (decide_eq_true passes.few)),stored,
    thenOk (rfl : found (some _) _ = .ok _),thenOk (liftVotesSome heights),tip,thenOk (rfl : found (some _) _ = .ok _),com,
    thenOk (callABISome _)]
  rfl

end

structure Processed (c : Executer) (n n' : Node) (block : Block) (finalized : Nat) (store : ConsensusStore)
    (v : BFTVotes) : Prop where
  overlays : Overlays n.db.state store
  stored : n.db.blocks.finalizedHeight = some finalized
  votes : store.votes.view () = some v
  linked : ∃ last rest, n.cache = last :: rest ∧ block.header.height = u32 (last.header.height + 1)
  result : ∃ events removeTemp,
    let final := finalize finalized v.maxHeightPrecommited n.db.stateDiff
      (n.db.stateDiff.set block.header.height (storeDiff store))
    n' = addBlock c n (n.db.state.commit store) final.2 block events final.1 removeTemp

theorem Passes.linked {c abi now state chain block cid store events v}
    (passes : Passes c abi now state chain block cid store events v) :
    ∃ last rest, chain = last::rest ∧ block.header.height = u32 (last.header.height+1) := by
  obtain ⟨_,acc⟩ := verifyBlockAccepted passes.verified
  obtain ⟨last,rest,shape,height,_⟩ := acc.linked
  cases chain with
  | nil => cases shape
  | cons tip tail =>
    cases shape
    exact ⟨tip,tail,rfl,height⟩

theorem processedOk {c abi now n n' block removeTemp} (ok : processValidated c abi now n block removeTemp = .ok n') :
    ∃ finalized store v, Processed c n n' block finalized store v := by
  obtain ⟨_,store,events,v,finalized,passes,stored,res⟩ := passesOk ok
  exact ⟨finalized,store,v,(newOverlays _).executed passes.executed,stored,getVotesOk.mp passes.votes,passes.linked,events,
    removeTemp,res⟩

theorem processedStep {c n n' block finalized fin' store v} (inv : FinalityInv n finalized)
    (step : Processed c n n' block fin' store v) :
    ∃ next, finalized ≤ next ∧ FinalityInv n' next ∧ n'.cache = block::n.cache := by
  have same := some.inj (step.stored.symm.trans inv.stored)
  subst same
  obtain ⟨events,removeTemp,rfl⟩ := step.result
  obtain ⟨last,rest,cache,height⟩ := step.linked
  have small := inv.small last (by rw [cache]; rfl)
  obtain ⟨larger,kept⟩ := finalizeSpec fin' v.maxHeightPrecommited n.db.stateDiff
    (n.db.stateDiff.set block.header.height (storeDiff store))
  generalize finalEq : finalize fin' v.maxHeightPrecommited n.db.stateDiff
    (n.db.stateDiff.set block.header.height (storeDiff store)) = final at *
  have votes := step.overlays.committedVotes.trans step.votes
  refine ⟨final.1,larger ▸ le_max_left _ _,⟨rfl,fun tip isTip => ?_,?_⟩,rfl⟩
  · cases isTip
    rw [height]
    exact Nat.le_of_lt_succ (u32Lt _)
  by_cases low : block.header.height ≤ final.1
  · exact .final v votes (larger ▸ le_max_right _ _) low
  have next : block.header.height = last.header.height+1 := by
    unfold u32 maxUint32 at *
    omega
  have undoable := inv.undoable
  rw [cache] at undoable
  have before : Undoable final.1 final.2 n.db.state (last::rest) := by
    refine undoable.raise (larger ▸ le_max_left _ _) (fun tip isTip h above fit => ?_)
    cases isTip
    rw [kept h above,getSet,if_neg (by omega)]
  have stored : final.2.get block.header.height = some (storeDiff store) := by
    rw [kept _ (not_le.mp low),getSet,if_pos rfl]
  show Undoable _ _ _ (block::n.cache)
  rw [cache]
  exact .undo v votes (larger ▸ le_max_right _ _) (storeDiff store) (not_le.mp low) next stored
    (step.overlays.reverted.symm ▸ before)

structure Deleted (n n' : Node) (finalized : Nat) (tip : Block) (diff : StateDiff) (saveTemp : Bool) : Prop where
  stored : n.db.blocks.finalizedHeight = some finalized
  above : finalized < tip.header.height
  diffFound : n.db.stateDiff.get tip.header.height = some diff
  cache : n.cache = tip :: n'.cache
  blocks : n'.db.blocks = n.db.blocks.removeBlock tip saveTemp
  state : n'.db.state = n.db.state.revertDiff diff
  diffs : n'.db.stateDiff = n.db.stateDiff.del tip.header.height

theorem deletedOk {c abi n n' saveTemp} (ok : deleteBlock c abi n saveTemp = .ok n') :
    ∃ finalized tip diff, Deleted n n' finalized tip diff saveTemp := by
  obtain ⟨tip,isTip,ok⟩ := bindOk ok
  obtain ⟨finalized,stored,ok⟩ := bindOk ok
  obtain ⟨_,above,ok⟩ := bindOk ok
  obtain ⟨_,_,ok⟩ := bindOk ok
  obtain ⟨_,_,ok⟩ := bindOk ok
  obtain ⟨diff,diffFound,ok⟩ := bindOk ok
  obtain ⟨_,_,ok⟩ := bindOk ok
  obtain ⟨_,_,ok⟩ := bindOk ok
  cases ok
  have cache : n.cache = tip::n.cache.tail := by
    obtain ⟨rest,shape⟩ := head?_eq_some_iff.mp (foundOk isTip)
    rw [shape,tail_cons]
  exact ⟨finalized,tip,diff,foundOk stored,by simpa using ensureOk above,foundOk diffFound,cache,rfl,rfl,rfl⟩

theorem Deleted.finalizedHeight {n n' finalized tip diff saveTemp} (step : Deleted n n' finalized tip diff saveTemp) :
    n'.db.blocks.finalizedHeight = some finalized := by
  rw [step.blocks]
  exact step.stored

theorem deletedStep {n n' finalized fin' tip diff saveTemp} (inv : FinalityInv n finalized)
    (step : Deleted n n' fin' tip diff saveTemp) : fin' = finalized ∧ FinalityInv n' finalized := by
  have same := some.inj (step.stored.symm.trans inv.stored)
  subst same
  have exceeds := step.above
  have small := inv.small tip (by rw [step.cache]; rfl)
  have undoable := inv.undoable
  rw [step.cache] at undoable
  generalize shape : n'.cache = rest at undoable
  cases undoable with
  | final v votes precommited low => omega
  | undo v votes precommited diff' high next stored before =>
    cases stored.symm.trans step.diffFound
    refine ⟨rfl,step.finalizedHeight,fun tip' isTip => ?_,?_⟩
    · rw [shape] at isTip
      cases isTip
      omega
    rw [shape,step.state,step.diffs]
    refine before.raise (le_refl _) (fun tip' isTip height _ fit => ?_)
    cases isTip
    rw [getDel,if_neg (by omega)]

theorem callABIError {α : Type} {x : Option α} {e} (failed : callABI x = .error e) : e = .abi := by
  cases x with
  | none => cases failed; rfl
  | some a => cases failed

theorem foundError {α : Type} {x : Option α} {e e'} (failed : found x e = .error e') : x = none ∧ e' = e := by
  cases x with
  | none => cases failed; exact ⟨rfl,rfl⟩
  | some a => cases failed

theorem ensureError {cond e e'} (failed : ensure cond e = .error e') : e' = e := by
  unfold ensure at failed
  split at failed <;> cases failed
  rfl

theorem missingDiff {c : Executer} {abi n saveTemp height} (missing : deleteBlock c abi n saveTemp = .error (.diffNotFound height)) :
    ∃ tip finalized, n.cache.head? = some tip ∧ n.db.blocks.finalizedHeight = some finalized ∧
      finalized < tip.header.height ∧ n.db.stateDiff.get tip.header.height = none := by
  rcases bindError missing with e | ⟨tip,isTip,missing⟩
  · cases (foundError e).2
  rcases bindError missing with e | ⟨finalized,stored,missing⟩
  · cases (foundError e).2
  rcases bindError missing with e | ⟨_,above,missing⟩
  · cases ensureError e
  rcases bindError missing with e | ⟨_,_,missing⟩
  · cases (foundError e).2
  rcases bindError missing with e | ⟨_,_,missing⟩
  · cases callABIError e
  rcases bindError missing with e | ⟨_,_,missing⟩
  · exact ⟨tip,finalized,foundOk isTip,foundOk stored,by simpa using ensureOk above,(foundError e).1⟩
  rcases bindError missing with e | ⟨_,_,missing⟩
  · cases callABIError e
  rcases bindError missing with e | ⟨_,_,missing⟩
  · cases ensureError e
  · cases missing

theorem diffFound {c n finalized} (inv : FinalityInv n finalized) (abi : ABI) (saveTemp : Bool) (height : Nat) :
    deleteBlock c abi n saveTemp ≠ .error (.diffNotFound height) := by
  intro missing
  obtain ⟨tip,fin',isTip,stored,above,absent⟩ := missingDiff missing
  have same := some.inj (stored.symm.trans inv.stored)
  subst same
  have undoable := inv.undoable
  obtain ⟨rest,cache⟩ := head?_eq_some_iff.mp isTip
  rw [cache] at undoable
  have held := undoable.diffStored above (le_refl _)
  rw [absent] at held
  cases held

theorem finalityStep {c n finalized} (inv : FinalityInv n finalized) (o : Operation) :
    ∃ next, finalized ≤ next ∧ FinalityInv (n.step c o) next ∧
      ∀ block ∈ n.cache, block.header.height ≤ finalized → block ∈ (n.step c o).cache := by
  unfold Node.step
  cases res : o.result c n with
  | error e => exact ⟨finalized,le_refl _,inv,fun _ mem _ => mem⟩
  | ok n' =>
    cases o with
    | processValidated abi now block removeTemp =>
      obtain ⟨_,store,v,step⟩ := processedOk res
      obtain ⟨next,raised,inv',cache⟩ := processedStep inv step
      exact ⟨next,raised,inv',fun b mem _ => cache ▸ mem_cons_of_mem _ mem⟩
    | deleteBlock abi saveTemp =>
      obtain ⟨_,tip,diff,step⟩ := deletedOk res
      obtain ⟨rfl,inv'⟩ := deletedStep inv step
      refine ⟨_,le_refl _,inv',fun b mem low => ?_⟩
      rw [step.cache] at mem
      rcases mem_cons.mp mem with rfl | kept
      · exact absurd step.above (not_lt.mpr low)
      · exact kept

theorem finalityRun {c n finalized} (inv : FinalityInv n finalized) (ops : List Operation) :
    ∃ next, finalized ≤ next ∧ FinalityInv (n.run c ops) next ∧
      ∀ block ∈ n.cache, block.header.height ≤ finalized → block ∈ (n.run c ops).cache := by
  induction ops generalizing n finalized with
  | nil => exact ⟨finalized,le_refl _,inv,fun _ mem _ => mem⟩
  | cons o rest ih =>
    obtain ⟨middle,raised,inv',kept⟩ := finalityStep inv o
    obtain ⟨next,raised',inv'',kept'⟩ := ih inv'
    exact ⟨next,raised.trans raised',inv'',fun block mem low =>
      kept' block (kept block mem low) (low.trans raised)⟩

theorem genesisResult {c abi n start genesis} (ok : processGenesisBlock c abi n genesis = .ok start) :
    ∃ contextID store events, executeGenesis c.engine.liskBFT abi contextID (newStore n.db.state) genesis = .ok (store,events) ∧
      start = addBlock c n (n.db.state.commit store) (n.db.stateDiff.set genesis.header.height (storeDiff store)) genesis events
        genesis.header.height false := by
  obtain ⟨_,_,ok⟩ := bindOk ok
  obtain ⟨contextID,_,ok⟩ := bindOk ok
  obtain ⟨⟨store,events⟩,ran,ok⟩ := bindOk ok
  obtain ⟨_,_,ok⟩ := bindOk ok
  obtain ⟨_,_,ok⟩ := bindOk ok
  obtain ⟨_,_,ok⟩ := bindOk ok
  obtain ⟨_,_,ok⟩ := bindOk ok
  obtain ⟨_,_,ok⟩ := bindOk ok
  cases ok
  exact ⟨contextID,store,events,ran,rfl⟩

theorem genesisProcessed {c abi n start genesis} (small : genesis.header.height ≤ maxUint32)
    (ok : processGenesisBlock c abi n genesis = .ok start) : FinalityInv start genesis.header.height := by
  obtain ⟨_,_,_,ran,rfl⟩ := genesisResult ok
  obtain ⟨resp,_,ran⟩ := bindOk ran
  obtain ⟨store',next,ran⟩ := bindOk ran
  cases ran
  have on := newOverlays n.db.state
  obtain ⟨overlays,votes⟩ := (on.setVotes _).nextValidators next
  obtain ⟨v,seen,precommited⟩ := votes _ ((setView on.votes () _ ()).trans (if_pos rfl))
  refine ⟨rfl,fun tip isTip => ?_,?_⟩
  · cases isTip
    exact small
  · exact .final v (overlays.committedVotes.trans seen) (le_of_eq precommited) (le_refl _)

def sampleABI : ABI where
  initStateMachine := fun _ => some []
  initGenesisState := fun _ => some ⟨[],1,1,[⟨[1],1,[],[1]⟩]⟩
  verifyAssets := fun _ _ => some ()
  beforeTransactionsExecute := fun _ _ _ => some []
  verifyTransaction := fun _ _ _ => some 1
  executeTransaction := fun _ _ _ _ _ => some (1, [])
  afterTransactionsExecute := fun _ _ _ _ => some ⟨[],0,0,[]⟩
  commit := fun _ _ _ => some []
  revert := fun _ _ _ => some []

def sampleExecuter : Executer := ⟨sampleEngine,0,-1,fun _ => true,fun _ => some []⟩

def sampleNode : Node :=
  match processGenesisBlock sampleExecuter sampleABI emptyNode ⟨sampleHeader 0 0 0 0 0 0 0,[],[]⟩ with
  | .ok n => n
  | .error _ => emptyNode

end LiskEngine.Consensus
