import LiskEngine.Finality
import LiskEngine.BlockList

/-! A node next to a deterministic application. The application answers from its state, a
commit moves the state and a revert takes the commit back. -/
namespace LiskEngine.Consensus
open Liskbft Blockchain Labi Diffdb List OrderedMap

structure Oracle (σ : Type) where
  abi : σ → ABI
  commit : σ → BlockHeader → σ
  revert : σ → BlockHeader → σ
  undo : ∀ s h, revert (commit s h) h = s

structure Machine (σ : Type) where
  node : Node
  app : σ

section
variable {σ : Type} (c : Executer) (o : Oracle σ)

def Machine.processValidated (now : Nat) (m : Machine σ) (block : Block) (removeTemp : Bool) : Except ExecuteError (Machine σ) := do
  let node ← Consensus.processValidated c (o.abi m.app) now m.node block removeTemp
  .ok ⟨node,o.commit m.app block.header⟩

def Machine.deleteBlock (m : Machine σ) (saveTemp : Bool) : Except ExecuteError (Machine σ) := do
  let deletingBlock ← found m.node.cache.head? .runtimePanic
  let node ← Consensus.deleteBlock c (o.abi m.app) m.node saveTemp
  .ok ⟨node,o.revert m.app deletingBlock.header⟩

inductive MachineOperation where
  | processValidated (now : Nat) (block : Block) (removeTemp : Bool)
  | deleteBlock (saveTemp : Bool)

def MachineOperation.result (m : Machine σ) : MachineOperation → Except ExecuteError (Machine σ)
  | .processValidated now block removeTemp => m.processValidated c o now block removeTemp
  | .deleteBlock saveTemp => m.deleteBlock c o saveTemp

def Machine.step (m : Machine σ) (operation : MachineOperation) : Machine σ :=
  match operation.result c o m with
  | .ok m' => m'
  | .error _ => m

def Machine.run (m : Machine σ) (operations : List MachineOperation) : Machine σ := operations.foldl (Machine.step c o) m

end

theorem verifiedAgain (ok : verifyBlock c now chain store header = .ok ()) :
    verifyBlock c later chain store header = .ok () ↔ c.getSlotNumber header.timestamp ≤ c.getSlotNumber later := by
  cases chain with
  | nil => cases ok
  | cons last rest =>
    obtain ⟨_,version,ok⟩ := bindOk ok
    obtain ⟨_,height,ok⟩ := bindOk ok
    obtain ⟨_,prev,ok⟩ := bindOk ok
    obtain ⟨_,_,ok⟩ := bindOk ok
    rw [verifyBlock,thenOk version,thenOk height,thenOk prev]
    constructor
    · intro again
      obtain ⟨_,cur,_⟩ := bindOk again
      simpa using checkOk cur
    · intro cur
      exact (thenOk (checkPass (decide_eq_true cur)) _).trans ok

theorem Passes.again (passes : Passes c abi now state chain block contextID store events v)
    (cur : c.engine.getSlotNumber block.header.timestamp ≤ c.engine.getSlotNumber later) :
    Passes c abi later state chain block contextID store events v :=
  {passes with verified := (verifiedAgain passes.verified).mpr cur}

/-- Above the finalized height the state of the tip comes from the state before by processing the tip,
and the diffs, the events and the height index hold what that wrote. -/
inductive Rebuilds {σ : Type} (c : Executer) (o : Oracle σ) (finalized : Nat) (diffs : OrderedMap Nat StateDiff)
    (blocks : BlockDB) : StateDB → σ → List Block → Prop
  | final {state : StateDB} {app : σ} {tip : Block} {rest : List Block} (low : tip.header.height ≤ finalized) :
      Rebuilds c o finalized diffs blocks state app (tip :: rest)
  | process {state state' : StateDB} {app app' : σ} {tip previous : Block} {rest : List Block} {now : Nat} {contextID : Bytes}
      {store : ConsensusStore} {events : List Blockchain.Event} {v : BFTVotes} (high : finalized < tip.header.height)
      (next : tip.header.height = previous.header.height + 1)
      (passes : Passes c (o.abi app) now state (previous :: rest) tip contextID store events v)
      (precommited : v.maxHeightPrecommited ≤ finalized) (committed : state' = state.commit store)
      (moved : app' = o.commit app tip.header) (diff : diffs.get tip.header.height = some (storeDiff store))
      (stored : events ≠ [] → blocks.events.get tip.header.height = some events)
      (listed : blocks.blockIDs.get tip.header.height = some tip.header.id)
      (before : Rebuilds c o finalized diffs blocks state app (previous :: rest)) :
      Rebuilds c o finalized diffs blocks state' app' (tip :: previous :: rest)

section
variable {σ : Type} {c : Executer} {o : Oracle σ} {fin : Nat}

theorem Rebuilds.raise (rebuilds : Rebuilds c o fin diffs blocks state app chain) (raised : fin ≤ finalized')
    (kept : ∀ block ∈ chain.head?, ∀ height, finalized' < height → height ≤ block.header.height →
      diffs'.get height = diffs.get height ∧ blocks'.events.get height = blocks.events.get height ∧
        blocks'.blockIDs.get height = blocks.blockIDs.get height) : Rebuilds c o finalized' diffs' blocks' state app chain := by
  induction rebuilds with
  | final low => exact .final (by omega)
  | @process state state' app app' tip prev rest now cid store events v high next passes precommited com moved diff
      stored listed before ih =>
    rcases lt_or_ge finalized' tip.header.height with above | low
    · obtain ⟨sameDiff,sameEvents,sameID⟩ := kept tip rfl _ above (le_refl _)
      refine .process above next passes (by omega) com moved (sameDiff.trans diff)
        (fun found => sameEvents.trans (stored found)) (sameID.trans listed) (ih fun block isHead height above fit => ?_)
      cases isHead
      exact kept tip rfl height above (by omega)
    · exact .final low

def Pruned (keep : Int) (events : OrderedMap Nat (List Blockchain.Event)) (finalized height : Nat) : Prop :=
  -1 < keep → 0 < minEventDeleteHeight keep finalized height →
    ∀ x : Nat, (x : Int) ≤ minEventDeleteHeight keep finalized height → x < height → events.get x = none

structure Rebuilt (c : Executer) (o : Oracle σ) (m : Machine σ) (finalized : Nat) : Prop where
  stored : m.node.db.blocks.finalizedHeight = some finalized
  small : ∀ tip ∈ m.node.cache.head?, tip.header.height ≤ maxUint32
  rebuilds : Rebuilds c o finalized m.node.db.stateDiff m.node.db.blocks m.node.db.state m.app m.node.cache
  pruned : ∀ tip ∈ m.node.cache.head?, Pruned c.keepEventsForHeights m.node.db.blocks.events finalized tip.header.height

theorem minEventDeleteLe (keep : Int) (fin height : Nat) : minEventDeleteHeight keep fin height ≤ fin :=
  Int.min_le_left _ _

theorem eventsKeptAbove (keep : Int) (stored events : OrderedMap Nat (List Blockchain.Event)) (above : fin < x) :
    (eventsKept keep stored events fin height).get x = events.get x := by
  have upTo := minEventDeleteLe keep fin height
  simp only [eventsKept]
  split
  · refine delKeysGet _ _ fun kv mem same => ?_
    have fit := (memBetween.mp mem).2.2
    omega
  · rfl

theorem delKeysGone {V : Type} {keys : List (Nat × V)} (table : OrderedMap Nat V)
    (gone : table.get k = none ∨ ∃ kv ∈ keys, kv.1 = k) : (keys.foldl (fun table kv => table.del kv.1) table).get k = none := by
  induction keys generalizing table with
  | nil =>
    rcases gone with absent | ⟨kv,mem,_⟩
    · exact absent
    · cases mem
  | cons kv rest ih =>
    refine ih _ ?_
    rw [getDel]
    rcases gone with absent | ⟨kv',mem,same⟩
    · exact .inl (by rw [absent,ite_self])
    · rcases mem_cons.mp mem with rfl | later
      · exact .inl (if_pos same.symm)
      · exact .inr ⟨kv',later,same⟩

theorem eventsKeptPruned (keep : Int) (same : ∀ x, x < height → events.get x = stored.get x) :
    Pruned keep (eventsKept keep stored events fin height) fin height := by
  intro on pos x upTo low
  simp only [eventsKept]
  rw [if_pos ⟨on,pos⟩]
  refine delKeysGone events ?_
  rw [same x low]
  cases held : stored.get x with
  | none => exact .inl rfl
  | some value => exact .inr ⟨(x,value),memBetween.mpr ⟨held,Nat.zero_le _,by omega⟩,rfl⟩

theorem savedElsewhere {table : OrderedMap Nat (List Blockchain.Event)} {events height x} (other : x ≠ height) :
    (if events.length > 0 then table.set height events else table).get x = table.get x := by
  split
  · rw [getSet,if_neg other]
  · rfl

theorem prunedKept (pruned : Pruned keep stored fin height) (above : fin < height) :
    eventsKept keep stored events fin height = events := by
  have upTo := minEventDeleteLe keep fin height
  simp only [eventsKept]
  split
  · rename_i dropping
    have absent : stored.between 0 (minEventDeleteHeight keep fin height).toNat = [] := by
      refine eq_nil_iff_forall_not_mem.mpr fun kv mem => ?_
      obtain ⟨held,_,fit⟩ := memBetween.mp mem
      rw [pruned dropping.1 dropping.2 kv.1 (by omega) (by omega)] at held
      cases held
    rw [absent]
    rfl
  · rfl

theorem Pruned.lower {lower} (pruned : Pruned keep events fin height)
    (below : lower ≤ height) (fewer : ∀ x, x < lower → events.get x = none → events'.get x = none) : Pruned keep events' fin lower := by
  intro on pos x upTo low
  unfold minEventDeleteHeight at pos upTo
  refine fewer x low (pruned on ?_ x ?_ (by omega))
  · unfold minEventDeleteHeight
    omega
  · unfold minEventDeleteHeight
    omega

section
variable {m m' : Machine σ}

theorem rebuiltProcess (rebuilt : Rebuilt c o m fin) (ok : m.processValidated c o now block removeTemp = .ok m') :
    ∃ next, Rebuilt c o m' next := by
  obtain ⟨node,processed,same⟩ := bindOk ok
  cases same
  obtain ⟨cid,store,events,v,fin',passes,stored,rfl⟩ := passesOk processed
  cases stored.symm.trans rebuilt.stored
  obtain ⟨last,rest,cache,height⟩ := passes.linked
  have small := rebuilt.small last (by rw [cache]; rfl)
  obtain ⟨larger,kept⟩ := finalizeSpec fin v.maxHeightPrecommited m.node.db.stateDiff
    (m.node.db.stateDiff.set block.header.height (storeDiff store))
  simp only [withPassed]
  generalize finalize fin v.maxHeightPrecommited m.node.db.stateDiff
    (m.node.db.stateDiff.set block.header.height (storeDiff store)) = final at larger kept ⊢
  have savedEvents := fun x => @savedElsewhere m.node.db.blocks.events events block.header.height x
  refine ⟨final.1,rfl,fun tip isTip => ?_,?_,fun tip isTip => ?_⟩
  · cases isTip
    rw [height]
    exact Nat.le_of_lt_succ (u32Lt _)
  · rcases lt_or_ge final.1 block.header.height with above | low
    · have next : block.header.height = last.header.height+1 := by
        unfold u32 maxUint32 at *
        omega
      have before := rebuilt.rebuilds
      rw [cache] at before passes
      show Rebuilds c o final.1 final.2 _ _ _ (block::m.node.cache)
      rw [cache]
      refine .process above next passes (larger ▸ le_max_right _ _) rfl rfl ?_ (fun ne => ?_) ?_
        (before.raise (larger ▸ le_max_left _ _) fun tip isTip x higher fit => ?_)
      · rw [kept _ above,getSet,if_pos rfl]
      · refine (eventsKeptAbove _ _ _ above).trans ?_
        rw [if_pos (length_pos_iff.mpr ne),getSet,if_pos rfl]
      · exact (getSet _ _ _ _).trans (if_pos rfl)
      · cases isTip
        have other : x ≠ block.header.height := by omega
        refine ⟨?_,(eventsKeptAbove _ _ _ higher).trans (savedEvents x other),(getSet _ _ _ _).trans (if_neg other)⟩
        rw [kept x higher,getSet,if_neg other]
    · exact .final low
  · cases isTip
    exact eventsKeptPruned _ fun x below => savedEvents x (Nat.ne_of_lt below)

structure TakenOff (c : Executer) (o : Oracle σ) (m m' : Machine σ) (finalized : Nat) (tip previous : Block) (rest : List Block)
    (now : Nat) (contextID : Bytes) (store : ConsensusStore) (events : List Blockchain.Event) (v : BFTVotes) (saveTemp : Bool) :
    Prop where
  cache : m.node.cache = tip :: previous :: rest
  cache' : m'.node.cache = previous :: rest
  above : finalized < tip.header.height
  next : tip.header.height = previous.header.height + 1
  passes : Passes c (o.abi m'.app) now m'.node.db.state (previous :: rest) tip contextID store events v
  precommited : v.maxHeightPrecommited ≤ finalized
  committed : m.node.db.state = m'.node.db.state.commit store
  moved : m.app = o.commit m'.app tip.header
  diff : m.node.db.stateDiff.get tip.header.height = some (storeDiff store)
  diffs : m'.node.db.stateDiff = m.node.db.stateDiff.del tip.header.height
  events : events ≠ [] → m.node.db.blocks.events.get tip.header.height = some events
  listed : m.node.db.blocks.blockIDs.get tip.header.height = some tip.header.id
  blocks : m'.node.db.blocks = m.node.db.blocks.removeBlock tip saveTemp
  before : Rebuilds c o finalized m.node.db.stateDiff m.node.db.blocks m'.node.db.state m'.app (previous :: rest)

section
variable (rebuilt : Rebuilt c o m fin)
include rebuilt

theorem takenOff (ok : m.deleteBlock c o saveTemp = .ok m') : ∃ tip prev rest now cid store events v,
      TakenOff c o m m' fin tip prev rest now cid store events v saveTemp := by
  obtain ⟨top,isTop,ok⟩ := bindOk ok
  obtain ⟨node,deleted,same⟩ := bindOk ok
  cases same
  obtain ⟨fin',tip,diff,step⟩ := deletedOk deleted
  cases step.stored.symm.trans rebuilt.stored
  rw [step.cache] at isTop
  cases isTop
  have rebuilds := rebuilt.rebuilds
  rw [step.cache] at rebuilds
  generalize shape : node.cache = tail at rebuilds
  generalize isState : m.node.db.state = state at rebuilds
  generalize isApp : m.app = app at rebuilds
  cases rebuilds with
  | final low => exact absurd step.above (not_lt.mpr low)
  | @process state0 _ app0 _ _ prev rest now cid store events v high next passes precommited com moved diffHeld
      stored listed before =>
    cases diffHeld.symm.trans step.diffFound
    have reverted : node.db.state = state0 := by
      rw [step.state,isState,com,((newOverlays _).executed passes.executed).reverted]
    have undone : o.revert app top.header = app0 := by rw [moved,o.undo]
    refine ⟨top,prev,rest,now,cid,store,events,v,?_⟩
    exact
      { cache := step.cache.trans (by rw [shape])
        cache' := shape
        above := step.above
        next := next
        passes := by simpa only [reverted,undone] using passes
        precommited := precommited
        committed := by rw [isState,com,reverted]
        moved := isApp.trans (moved.trans (congrArg (fun before => o.commit before top.header) undone.symm))
        diff := diffHeld
        diffs := step.diffs
        events := stored
        listed := listed
        blocks := step.blocks
        before := by simpa only [reverted,undone] using before }

theorem rebuiltDelete (ok : m.deleteBlock c o saveTemp = .ok m') : Rebuilt c o m' fin := by
  obtain ⟨tip,prev,rest,now,cid,store,events,v,off⟩ := takenOff rebuilt ok
  have next := off.next
  refine ⟨?_,fun top isTop => ?_,?_,fun top isTop => ?_⟩
  · rw [off.blocks]
    exact rebuilt.stored
  · rw [off.cache'] at isTop
    cases isTop
    have small := rebuilt.small tip (by rw [off.cache]; rfl)
    omega
  · rw [off.cache',off.diffs,off.blocks]
    refine off.before.raise (le_refl _) fun top isTop height _ fit => ?_
    cases isTop
    have other : height ≠ tip.header.height := by omega
    exact ⟨(getDel _ _ _).trans (if_neg other),(getDel _ _ _).trans (if_neg other),(getDel _ _ _).trans (if_neg other)⟩
  · rw [off.cache'] at isTop
    cases isTop
    rw [off.blocks]
    refine (rebuilt.pruned tip (by rw [off.cache]; rfl)).lower (by omega) fun x low absent => ?_
    exact (getDel _ _ _).trans ((if_neg (by omega)).trans absent)

theorem rebuiltStep (op : MachineOperation) : ∃ next, Rebuilt c o (m.step c o op) next := by
  unfold Machine.step
  cases res : op.result c o m with
  | error e => exact ⟨fin,rebuilt⟩
  | ok m' =>
    cases op with
    | processValidated now block removeTemp => exact rebuiltProcess rebuilt res
    | deleteBlock saveTemp => exact ⟨fin,rebuiltDelete rebuilt res⟩

theorem rebuiltRun (ops : List MachineOperation) : ∃ next, Rebuilt c o (m.run c o ops) next := by
  induction ops generalizing m fin with
  | nil => exact ⟨fin,rebuilt⟩
  | cons op rest ih =>
    obtain ⟨next,rebuilt⟩ := rebuiltStep rebuilt op
    exact ih rebuilt

end

theorem rebuiltGenesis (small : genesis.header.height ≤ maxUint32)
    (ok : processGenesisBlock c abi emptyNode genesis = .ok start) (app : σ) : Rebuilt c o ⟨start,app⟩ genesis.header.height := by
  have inv := genesisProcessed small ok
  obtain ⟨_,_,_,_,rfl⟩ := genesisResult ok
  refine ⟨inv.stored,inv.small,.final (le_refl _),fun tip isTip => ?_⟩
  cases isTip
  exact eventsKeptPruned _ fun x below => savedElsewhere (Nat.ne_of_lt below)

end

end

end LiskEngine.Consensus
