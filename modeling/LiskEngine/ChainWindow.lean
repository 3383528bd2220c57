import LiskEngine.BftHistory

/-! The window of headers as a part of the chain, in every run and for any weights: it lists the
newest blocks at consecutive heights, and no header of it contradicts the one its generator made
before. -/
namespace LiskEngine.Consensus
open Liskbft Contradiction Diffdb BFTVotes List Option Bool Database

def latestOwn (headers : List BFTPartialBlockHeader) (generator : Bytes) : Option BFTPartialBlockHeader :=
  headers.find? (fun b => b.generatorAddress = generator)

def Compared : List BFTPartialBlockHeader → Prop
  | [] => True
  | b :: rest => (∀ c, latestOwn rest b.generatorAddress = some c → areDistinctHeadersContradicting c b = false) ∧
      Compared rest

theorem comparedTake (compared : Compared headers) (n : Nat) : Compared (headers.take n) := by
  induction headers generalizing n with
  | nil => simpa using compared
  | cons b rest ih =>
    cases n with
    | zero => trivial
    | succ n =>
      exact ⟨fun c hit => compared.1 c (( take_prefix n rest).find?_eq_some hit),ih compared.2 n⟩

theorem contradictingFalse : v.contradicting header = false ↔
    ∀ b, latestOwn (windowHeaders v) header.generatorAddress = some b → areDistinctHeadersContradicting b header = false := by
  unfold contradicting latestOwn windowHeaders
  rw [find?_map]
  have own : v.blockBFTInfos.find? ((fun b => decide (b.generatorAddress = header.generatorAddress)) ∘
      BFTBlockHeader.partialHeader) = v.blockBFTInfos.find? (·.generatorAddress = header.generatorAddress) := rfl
  rw [own]
  cases v.blockBFTInfos.find? (·.generatorAddress = header.generatorAddress) <;> simp

structure Mirrors (s : ChainState) (v : BFTVotes) : Prop where
  coherent : Database.Coherent s.store.votes
  votes : s.store.votes.view () = some v
  tip : s.blocks.head?.map (·.height) = some (API.currentHeight v)
  listed : windowHeaders v <+: s.blocks.map newBFTBlockHeader
  heights : ∀ j h, (windowHeaders v)[j]? = some h → h.height + j = API.currentHeight v
  small : ∀ h ∈ windowHeaders v, h.height < maxUint32
  compared : Compared (windowHeaders v)

theorem currentHeightOf (window : windowHeaders v = h::rest) : API.currentHeight v = h.height := by
  have heights : windowHeights v = h.height::rest.map (·.height) := by rw [windowHeightsOf,window,map_cons]
  exact tipOfWindow heights

theorem headerChecked (votes : s.store.votes.view () = some v) (ok : headerChecks now s n = true) :
    ∃ last rest, s.blocks = last::rest ∧ n.height = u32 (last.height+1) ∧
      n.maxHeightPrevoted = v.maxHeightPrevoted ∧ v.contradicting (newBFTBlockHeader n) = false := by
  unfold headerChecks at ok
  rw [getVotesOk.mpr votes] at ok
  cases blocks : s.blocks with
  | nil => rw [blocks] at ok; cases ok
  | cons last rest =>
    rw [blocks] at ok
    simp only [and_eq_true,beq_iff_eq,not_eq_true'] at ok
    exact ⟨last,rest,rfl,ok.1.1,ok.1.2,ok.2⟩

section
variable {s s' : ChainState} {v : BFTVotes}

theorem mirrorsBlock (mirrors : Mirrors s v) {m : Module} {now n} (acc : headerChecks now s n = true) {store'}
    (ok : m.beforeTransactionsExecute n s.store = .ok store') : ∃ v' room, Mirrors ⟨store',n::s.blocks⟩ v' ∧
      windowHeaders v' = newBFTBlockHeader n::(windowHeaders v).take room ∧ n.maxHeightPrevoted = v.maxHeightPrevoted := by
  obtain ⟨v',room,moved,window,_⟩ := beforeMoves ok mirrors.votes
  obtain ⟨last,rest,blocks,height,prevoted,agree⟩ := headerChecked mirrors.votes acc
  have tip : last.height = API.currentHeight v := by
    have tip := mirrors.tip
    rw [blocks] at tip
    exact some.inj tip
  have cur : API.currentHeight v' = n.height := currentHeightOf window
  refine ⟨v',room,?_,window,prevoted⟩
  rw [moved.result]
  exact {
    coherent := setCoherent mirrors.coherent _ _
    votes := by simp [setView mirrors.coherent]
    tip := by rw [cur]; rfl
    listed := by
      rw [window,map_cons]
      exact prefix_cons_inj _ |>.mpr (( take_prefix _ _).trans mirrors.listed)
    heights := fun j h hit => by
      rw [window] at hit
      rw [cur]
      cases j with
      | zero => cases hit; rfl
      | succ j =>
        rw [getElem?_cons_succ,getElem?_take] at hit
        split at hit
        · have position := mirrors.heights j h hit
          have top := mirrors.heights 0
          have ne : ∃ first, (windowHeaders v)[0]? = some first := by
            cases headers : windowHeaders v with
            | nil => rw [headers] at hit; cases hit
            | cons first others => exact ⟨first,rfl⟩
          obtain ⟨first,atTop⟩ := ne
          have small := mirrors.small first (mem_of_getElem? atTop)
          have top := top first atTop
          rw [height,tip,u32Small (by unfold maxUint32 at small; omega)]
          omega
        · cases hit
    small := fun h mem => by
      rw [window] at mem
      rcases mem_cons.mp mem with rfl | old
      · exact moved.small
      · exact mirrors.small h (mem_of_mem_take old)
    compared := by
      rw [window]
      refine ⟨fun c hit => contradictingFalse.mp agree c ?_,comparedTake mirrors.compared room⟩
      exact ( take_prefix room _).find?_eq_some hit }

theorem mirrorsParams (mirrors : Mirrors s v) (call : ParamsCall)
    (ok : API.setBFTParameters m s.store call.precommitThreshold call.certificateThreshold call.validators = .ok store') :
    ∃ v', Mirrors {s with store := store'} v' ∧ windowHeaders v' = windowHeaders v := by
  rcases setParamsResult call ok mirrors.votes with ⟨_,rfl⟩ | ⟨_,rfl⟩
  · exact ⟨v,mirrors,rfl⟩
  · refine ⟨votesWithValidators v call.validators,{mirrors with
      coherent := setCoherent mirrors.coherent _ _
      votes := by simp [setView mirrors.coherent] },rfl⟩

theorem mirrorsKeys (mirrors : Mirrors s v) (ok : API.setGeneratorKeys s.store generators = .ok store') :
    Mirrors {s with store := store'} v := by
  obtain ⟨_,_,ok⟩ := bindOk ok
  cases ok
  exact {mirrors with}

theorem mirrorsCommit (mirrors : Mirrors s v) : Mirrors {s with store := flushStore s.store} v := {mirrors with
    coherent := flushCoherent _
    votes := (flushView mirrors.coherent ()).trans mirrors.votes }

theorem applyKeys (ok : s.apply m accept (.setGeneratorKeys generators) = some s') :
    ∃ store', API.setGeneratorKeys s.store generators = .ok store' ∧ s' = {s with store := store'} := by
  simp only [ChainState.apply] at ok
  cases changed : API.setGeneratorKeys s.store generators with
  | error e => rw [changed] at ok; cases ok
  | ok store' => rw [changed] at ok; cases ok; exact ⟨store',rfl,rfl⟩

theorem mirrorsStep {m : Module} {accept} (checks : ∀ now s n, accept now s n = true → headerChecks now s n = true) {e}
    (mirrors : Mirrors s v) (ok : s.apply m accept e = some s') : ∃ v', Mirrors s' v' ∧ (windowHeaders v' = windowHeaders v ∨
      ∃ n room, windowHeaders v' = newBFTBlockHeader n::(windowHeaders v).take room ∧ n.maxHeightPrevoted = v.maxHeightPrevoted) := by
  cases e with
  | block now n =>
    obtain ⟨acc,store',ran,rfl⟩ := applyBlock ok
    obtain ⟨v',room,mirrors',window,prevoted⟩ := mirrorsBlock mirrors (checks now s n acc) ran
    exact ⟨v',mirrors',Or.inr ⟨n,room,window,prevoted⟩⟩
  | setBFTParameters pre cert vals =>
    obtain ⟨store',changed,rfl⟩ := applyParams ⟨pre,cert,vals⟩ ok
    obtain ⟨v',mirrors',window⟩ := mirrorsParams mirrors _ changed
    exact ⟨v',mirrors',Or.inl window⟩
  | setGeneratorKeys gens =>
    obtain ⟨store',changed,rfl⟩ := applyKeys ok
    exact ⟨v,mirrorsKeys mirrors changed,Or.inl rfl⟩
  | commit =>
    cases ok
    exact ⟨v,mirrorsCommit mirrors,Or.inl rfl⟩

end

theorem genesisMirrors (genesis : BlockHeader) : Mirrors (genesisState genesis)
    ⟨genesis.height,genesis.height,genesis.height,[],[]⟩ where
  coherent := (genesisVotes genesis).1
  votes := (genesisVotes genesis).2
  tip := rfl
  listed := nil_prefix
  heights := by simp [windowHeaders]
  small := by simp [windowHeaders]
  compared := trivial

theorem reachMirrors (checks : ∀ now s n, accept now s n = true → headerChecks now s n = true)
    (run : (genesisState genesis).run m accept events = some s) : ∃ v, Mirrors s v := by
  have step : ∀ s e s', True → (∃ v, Mirrors s v) → s.apply m accept e = some s' → ∃ v, Mirrors s' v := by
    intro s e s' _ ⟨v,mirrors⟩ ok
    obtain ⟨v',mirrors',_⟩ := mirrorsStep checks mirrors ok
    exact ⟨v',mirrors'⟩
  exact runInduction _ step (fun _ _ => trivial) ⟨_,genesisMirrors genesis⟩ run

namespace Mirrors
variable {s : ChainState} {v : BFTVotes}

theorem blockOf (mirrors : Mirrors s v) {j : Nat} (hit : (windowHeaders v)[j]? = some h) :
    ∃ b, getBlockHeaderByHeight s.blocks h.height = .ok b ∧ newBFTBlockHeader b = h := by
  have inside := (List.getElem?_eq_some_iff.mp hit).1
  have listed : (s.blocks.map newBFTBlockHeader)[j]? = some h := by
    obtain ⟨rest,split⟩ := mirrors.listed
    rw [← split,List.getElem?_append_left inside]
    exact hit
  rw [List.getElem?_map] at listed
  obtain ⟨b,there,same⟩ := map_eq_some_iff.mp listed
  have height : b.height = h.height := congrArg BFTPartialBlockHeader.height same
  refine ⟨b,?_,same⟩
  unfold getBlockHeaderByHeight
  have first : s.blocks.find? (·.height = h.height) = some b := by
    rw [List.find?_eq_some_iff_getElem]
    obtain ⟨fit,atJ⟩ := List.getElem?_eq_some_iff.mp there
    refine ⟨by simpa using height,j,fit,atJ,fun i early => ?_⟩
    have before : (windowHeaders v)[i]? = some (newBFTBlockHeader s.blocks[i]) := by
      obtain ⟨rest,split⟩ := mirrors.listed
      have position := congrArg (·[i]?) split
      simp only [List.getElem?_append_left (early.trans inside),List.getElem?_map,
        List.getElem?_eq_getElem (early.trans fit),map_some] at position
      exact position
    have other := mirrors.heights i _ before
    have own := mirrors.heights j h hit
    have same : (newBFTBlockHeader s.blocks[i]).height = s.blocks[i].height := rfl
    simp only [not_eq_true',decide_eq_false_iff_not]
    omega
  rw [first]

end Mirrors
end LiskEngine.Consensus
