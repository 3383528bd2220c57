import LiskEngine.ChainSync

/-! The fast syncer. The temporary blocks are kept by height, and a failed sync saves the
downloaded blocks over the original ones, so it restores the chain only as far as the
accepted blocks were the original ones. -/
namespace LiskEngine.Sync
open Blockchain Codec List OrderedMap

structure SyncContext where
  block : Block
  finalizedHeight : Nat
  currentValidators : List Bytes

structure Peer (ε : Type) where
  highestCommonBlock : List Bytes → Except ε Bytes
  blocksFromID : List (Except ε (List Block))

structure Outcome (ε : Type) where
  done : Bool
  error : Option (SyncError ε)
  banned : Bool
  chain : Listed

def getLastHeights (start num : Nat) : List Nat := ((List.range (num - 1)).takeWhile (· ≤ start)).map (start - ·)

section
variable {ε : Type} (text : Normalizer) (sha : Bytes → Bytes)

def getCommonBlock (peer : Peer ε) (ctx : SyncContext) (l : Listed) (lastBlockHeader : BlockHeader) :
    Except (SyncError ε) BlockHeader :=
  let heights := getLastHeights lastBlockHeader.height (ctx.currentValidators.length * 2)
  let ids := heights.filterMap (fun height => (l.byHeight height).map entryID)
  match peer.highestCommonBlock ids with
  | .error e => .error (.request e)
  | .ok [] => .error .commonBlockNotFound
  | .ok blockID => match l.byID blockID with
    | none => .error .dataNotFound
    | some e => .ok e.1.header

def downloadAndValidate : List (Except ε Block) → Except (SyncError ε) (List Block)
  | [] => .ok []
  | .error e :: _ => .error (.request e)
  | .ok block :: rest => match block.validate text sha with
    | .error e => .error (.invalid e)
    | .ok _ => (downloadAndValidate rest).map (block :: ·)

/-- Heights are 32-bit numbers; their difference wraps. -/
def tooFar (ctx : SyncContext) (lastBlockHeader commonBlockHeader : BlockHeader) : Prop :=
  let twoRounds := u32 (u32 ctx.currentValidators.length * 2)
  u32 (lastBlockHeader.height + 4294967296 - commonBlockHeader.height) > twoRounds ∨
    u32 (ctx.block.header.height + 4294967296 - commonBlockHeader.height) > twoRounds

instance (ctx : SyncContext) (lastBlockHeader commonBlockHeader : BlockHeader) :
    Decidable (tooFar ctx lastBlockHeader commonBlockHeader) := by
  unfold tooFar
  infer_instance

def restoreBlocks (n : Node ε) (l : Listed) (commonBlockHeader : BlockHeader) : Option (SyncError ε) × Listed :=
  match deleteTillCommonBlock n l commonBlockHeader with
  | (.error e, l) => (some e, l)
  | (.ok _, l) =>
    let restored := processBlocks n true (sortBlockByHeightAsc (getTempBlocks l)) l
    (restored.1.map .rejected, restored.2)

def fastSync (n : Node ε) (peer : Peer ε) (ctx : SyncContext) (l : Listed) : Outcome ε :=
  match l.blocks with
  | [] => ⟨false,some .nilBlock,false,l⟩
  | last :: _ => match getCommonBlock peer ctx l last.1.header with
    | .error .commonBlockNotFound => ⟨false,some .commonBlockNotFound,true,l⟩
    | .error e => ⟨false,some e,false,l⟩
    | .ok commonBlockHeader =>
      if commonBlockHeader.height < ctx.finalizedHeight then ⟨false,some .lowerThanFinalized,true,l⟩
      else if tooFar ctx last.1.header commonBlockHeader then ⟨true,some .heightDifference,false,l⟩
      else match downloadAndValidate text sha (downloaded ctx.block.header.id peer.blocksFromID) with
        | .error (.invalid e) => ⟨true,some (.invalid e),true,l⟩
        | .error e => ⟨true,some e,false,l⟩
        | .ok downloadedBlocks => match deleteTillCommonBlock n l commonBlockHeader with
          | (.error e, l) => ⟨true,some e,false,l⟩
          | (.ok _, l) => match processBlocks n false downloadedBlocks l with
            | (none, l) => ⟨true,none,false,{l with temp := OrderedMap.empty}⟩
            | (some e, l) => match restoreBlocks n l commonBlockHeader with
              | (some e, l) => ⟨true,some e,false,l⟩
              | (none, l) => ⟨true,some (.rejected e),true,l⟩

end

section
variable {c : Nat} {bs : List Block} {temp : OrderedMap Nat Block}

def Ascending (bs : List Block) (c : Nat) : Prop := ∀ i b, bs[i]? = some b → b.header.height = c + 1 + i

theorem Ascending.pairwise (ascending : Ascending bs c) : bs.Pairwise (fun a b => a.header.height < b.header.height) := by
  rw [pairwise_iff_getElem]
  intro i j first second less
  have low := ascending i _ (getElem?_eq_getElem first)
  have high := ascending j _ (getElem?_eq_getElem second)
  omega

theorem tempEntries (ascending : Ascending bs c) (held : ∀ height, temp.get height = if c < height then bs[height-c-1]? else none) :
    temp.entries = bs.map (fun b => (b.header.height,b)) := by
  refine ascendingEq temp.sorted (pairwise_map.mpr ascending.pairwise) (fun e => ?_)
  obtain ⟨height,b⟩ := e
  rw [memIffGet,held,mem_map]
  constructor
  · intro hit
    split at hit
    · rename_i above
      refine ⟨b,mem_of_getElem? hit,?_⟩
      have := ascending _ b hit
      rw [show b.header.height = height by omega]
    · cases hit
  · rintro ⟨b',mem,same⟩
    obtain ⟨i,at'⟩ := mem_iff_getElem?.mp mem
    have own := ascending i b' at'
    cases same
    rw [if_pos (by omega),show b.header.height-c-1 = i by omega,at']

theorem sortAscending (ascending : Ascending bs c) : sortBlockByHeightAsc bs.reverse = bs := by
  have perm : (sortBlockByHeightAsc bs.reverse).Perm bs := (perm_insertionSort _ _).trans (reverse_perm bs)
  have sorted : (sortBlockByHeightAsc bs.reverse).Pairwise (fun a b => a.header.height ≤ b.header.height) :=
    pairwise_insertionSort _ _
  have nodup := pairwise_map.mpr (ascending.pairwise.imp (·.ne))
  refine perm.eq_of_pairwise (fun a b first second ab ba => ?_) sorted (ascending.pairwise.imp (·.le))
  exact inj_on_of_nodup_map nodup (perm.mem_iff.mp first) second (le_antisymm ab ba)

theorem tempSorted (ascending : Ascending bs c) (held : ∀ height, temp.get height = if c < height then bs[height-c-1]? else none) :
    sortBlockByHeightAsc (getTempBlocks ⟨blocks,temp⟩) = bs := by
  have snd : (bs.map (fun b => (b.header.height,b))).reverse.map Prod.snd = bs.reverse := by
    rw [map_reverse,map_map,Function.comp_def,map_id']
  rw [getTempBlocks,tempEntries ascending held,snd,sortAscending ascending]

end

section
variable {ε : Type} {n : Node ε} {above below : List (Block × List Event)} {common : Block × List Event} {tip : Nat}

structure Regular (n : Node ε) : Prop where
  next : ∀ top chain block events, n.process (top :: chain) block = .ok events → block.header.height = top.header.height + 1
  reverts : ∀ chain, n.revert chain = .ok ()

theorem ascendingAbove (consec : Consecutive (above ++ common::below) tip) :
    Ascending (above.map Prod.fst).reverse (entryHeight common) := by
  intro i b at'
  have bound : i < above.length := by
    simpa using (List.getElem?_eq_some_iff.mp at').1
  rw [getElem?_reverse (by rw [length_map]; exact bound),length_map,getElem?_map,Option.map_eq_some_iff] at at'
  obtain ⟨e,entry,rfl⟩ := at'
  have own : entryHeight common+above.length = tip := by simpa using consec above.length common (by simp)
  have upper := consec (above.length-1-i) e (by rw [getElem?_append_left (by omega)]; exact entry)
  show entryHeight e = _
  omega

theorem consecutiveBelow (consec : Consecutive (above ++ common::below) tip) : Consecutive (common::below) (entryHeight common) := by
  intro i e at'
  have own := consec above.length common (by simp)
  have lower := consec (above.length+i) e
    (by rw [getElem?_append_right (by omega),Nat.add_sub_cancel_left]; exact at')
  omega

theorem acceptsAscending (regular : Regular n) (accepts : Accepts n (top::chain) bs) : Ascending bs top.header.height := by
  induction bs generalizing top chain with
  | nil => exact fun i b at' => by cases at'
  | cons block rest ih =>
    obtain ⟨⟨events,accepted⟩,later⟩ := accepts
    have next := regular.next top chain block events accepted
    intro i b at'
    cases i with
    | zero => rw [← Option.some.inj at',next]
    | succ i =>
      have := ih later i b at'
      omega

theorem consecutiveOf {es} (ascending : Ascending bs (entryHeight common)) (blocks : es.map Prod.fst = bs.reverse)
    (consec : Consecutive (common::below) (entryHeight common)) :
    Consecutive (es ++ common::below) (entryHeight common+bs.length) := by
  intro i e at'
  have len : es.length = bs.length := by simpa using congrArg length blocks
  rcases lt_or_ge i es.length with inside | beyond
  · rw [getElem?_append_left inside] at at'
    have block : bs.reverse[i]? = some e.1 := by rw [← blocks,getElem?_map,at']; rfl
    rw [getElem?_reverse (by omega)] at block
    have own : entryHeight e = _ := ascending _ _ block
    omega
  · rw [getElem?_append_right beyond] at at'
    have := consec _ _ at'
    omega

theorem deleteAbove (regular : Regular n) (consec : Consecutive (above ++ common::below) tip) {bs : List Block}
    (blocks : above.map Prod.fst = bs.reverse) (temp : OrderedMap Nat Block) :
    ∃ temp', deleteTillCommonBlock n ⟨above ++ common::below,temp⟩ common.1.header = (.ok (),⟨common::below,temp'⟩) ∧
      ∀ height, temp'.get height = if entryHeight common < height ∧ height ≤ entryHeight common+bs.length then
        bs[height-entryHeight common-1]? else temp.get height := by
  obtain ⟨temp',deleted,held⟩ := deleteLoopSpec regular.reverts consec temp
  refine ⟨temp',deleted,fun height => ?_⟩
  have own : entryHeight common+above.length = tip := by simpa using consec above.length common (by simp)
  have len : above.length = bs.length := by simpa using congrArg length blocks
  rw [held,← len,own]
  split
  · rename_i inside
    rw [← getElem?_map,blocks,getElem?_reverse (by omega)]
    congr 1
    omega
  · rfl

theorem overlaidAt (first second : List Block) (i : Nat) :
    (first ++ second.drop first.length)[i]? = if i < first.length then first[i]? else second[i]? := by
  rw [getElem?_append]
  split
  · rfl
  · rw [getElem?_drop]
    congr 1
    omega

theorem Ascending.overlaid (left : Ascending first c) (right : Ascending second c) :
    Ascending (first ++ second.drop first.length) c := by
  intro i b at'
  rw [overlaidAt] at at'
  split at at'
  · exact left i b at'
  · exact right i b at'

theorem overlaidTable {first second : List Block} {c} {temp temp1 temp2 : OrderedMap Nat Block}
    (out : ∀ height b, temp.get height = some b → c < height ∧ height ≤ c+second.length)
    (held1 : ∀ height, temp1.get height = if c < height ∧ height ≤ c+second.length then second[height-c-1]? else temp.get height)
    (held2 : ∀ height, temp2.get height = if c < height ∧ height ≤ c+first.length then first[height-c-1]? else temp1.get height)
    (height : Nat) : temp2.get height = if c < height then (first ++ second.drop first.length)[height-c-1]? else none := by
  have unheld : ¬(c < height ∧ height ≤ c+second.length) → temp.get height = none := by
    intro beyond
    cases hit : temp.get height with
    | none => rfl
    | some b => exact absurd (out height b hit) beyond
  rw [held2,held1,overlaidAt]
  by_cases higher : c < height
  · rw [if_pos higher]
    by_cases covered : height ≤ c+first.length
    · rw [if_pos ⟨higher,covered⟩,if_pos (by omega)]
    have beyond : ¬height-c-1 < first.length := by omega
    rw [if_neg (fun both => covered both.2),if_neg beyond]
    split
    · rfl
    · rename_i outer
      rw [unheld outer,getElem?_eq_none (by omega)]
  · rw [if_neg (fun both => higher both.1),if_neg (fun both => higher both.1),if_neg higher,unheld (fun both => higher both.1)]

variable (text : Normalizer) (sha : Bytes → Bytes) (n) (peer : Peer ε) (ctx : SyncContext) (l : Listed) in
/-- A sync whose downloaded blocks are accepted up to one that is rejected. The blocks above the common one would be
accepted again, and there are no other temporary blocks than those that are overwritten. -/
structure FailedSync (above : List (Block × List Event)) (common : Block × List Event) (below : List (Block × List Event))
    (accepted : List Block) : Prop where
  regular : Regular n
  blocks : l.blocks = above ++ common :: below
  consecutive : Consecutive l.blocks (entryHeight common + above.length)
  commonBlock : ∀ last rest, l.blocks = last :: rest → getCommonBlock peer ctx l last.1.header = .ok common.1.header
  finalized : ctx.finalizedHeight ≤ common.1.header.height
  near : ∀ last rest, l.blocks = last :: rest → ¬tooFar ctx last.1.header common.1.header
  downloads : ∃ rejected rest e, downloadAndValidate text sha (downloaded ctx.block.header.id peer.blocksFromID) =
    .ok (accepted ++ rejected :: rest) ∧ n.process (accepted.reverse ++ (common :: below).map Prod.fst) rejected = .error e
  accepts : Accepts n ((common :: below).map Prod.fst) accepted
  again : Accepts n ((common :: below).map Prod.fst) (above.map Prod.fst).reverse
  temp : ∀ height b, l.temp.get height = some b →
    entryHeight common < height ∧ height ≤ entryHeight common + above.length

variable {text : Normalizer} {sha : Bytes → Bytes} {peer : Peer ε} {ctx : SyncContext} {l : Listed} {accepted : List Block}

theorem failedSyncRestores (failed : FailedSync n text sha peer ctx l above common below accepted) :
    ∃ temp, (fastSync text sha n peer ctx l).chain =
      (processBlocks n true (accepted ++ (above.map Prod.fst).reverse.drop accepted.length) ⟨common::below,temp⟩).2 := by
  obtain ⟨blocks,temp⟩ := l
  obtain ⟨regular,rfl,consec,commonBlock,fin,near,⟨rejected,rest,e,downloads,rejects⟩,accepts,again,out⟩ := failed
  obtain ⟨last,others,shape⟩ : ∃ last others, above ++ common::below = last::others := exists_cons_of_ne_nil (by simp)
  obtain ⟨temp1,deleted,held1⟩ := deleteAbove regular consec (reverse_reverse _).symm temp
  obtain ⟨es,temp',processed,blocks,kept⟩ :=
    @processAccepted _ n ⟨common::below,temp1⟩ accepted false accepts (rejected::rest)
  rw [kept rfl] at processed
  have stopped : processBlocks n false (accepted ++ rejected::rest) ⟨common::below,temp1⟩ =
      (some e,⟨es ++ common::below,temp1⟩) := by
    rw [processed]
    refine processError ?_
    rw [map_append,blocks]
    exact rejects
  have ascending := acceptsAscending regular accepts
  obtain ⟨temp2,deletedAgain,held2⟩ := deleteAbove regular (consecutiveOf ascending blocks (consecutiveBelow consec)) blocks temp1
  have out' : ∀ height b, temp.get height = some b →
      entryHeight common < height ∧ height ≤ entryHeight common+(above.map Prod.fst).reverse.length := by
    simpa using out
  have temps : sortBlockByHeightAsc (getTempBlocks ⟨common::below,temp2⟩) =
      accepted ++ (above.map Prod.fst).reverse.drop accepted.length :=
    tempSorted (ascending.overlaid (ascendingAbove consec)) (overlaidTable out' held1 held2)
  have first := commonBlock last others shape
  have close := near last others shape
  simp only [shape] at deleted first
  refine ⟨temp2,?_⟩
  simp only [fastSync,shape,first,if_neg (not_lt.mpr fin),if_neg close,downloads,deleted,stopped,restoreBlocks,
    deletedAgain,temps]
  split <;> rename_i same <;> exact (congrArg Prod.snd same).symm

theorem fastSyncRestoresIff (failed : FailedSync n text sha peer ctx l above common below accepted) :
    (fastSync text sha n peer ctx l).chain.blocks.map Prod.fst = l.blocks.map Prod.fst ↔
      accepted <+: (above.map Prod.fst).reverse := by
  obtain ⟨temp,restored⟩ := failedSyncRestores failed
  have original : l.blocks.map Prod.fst = (above.map Prod.fst).reverse.reverse ++ (common :: below).map Prod.fst := by
    rw [failed.blocks,map_append,reverse_reverse]
  rw [restored,original]
  constructor
  · intro same
    obtain ⟨entries,temp',processed,blocks,_⟩ := @processAccepted _ n ⟨common :: below,temp⟩ accepted true failed.accepts
      ((above.map Prod.fst).reverse.drop accepted.length)
    obtain ⟨done,_,extended⟩ := @processExtends _ n true ((above.map Prod.fst).reverse.drop accepted.length)
      ⟨entries ++ common :: below,temp'⟩
    rw [processed,extended,map_append,blocks,← append_assoc,← reverse_append] at same
    exact ⟨done,reverse_injective (append_cancel_right same)⟩
  · rintro ⟨more,all⟩
    rw [← all,drop_left,all,← append_nil (above.map Prod.fst).reverse]
    obtain ⟨entries,temp',processed,blocks,_⟩ := @processAccepted _ n ⟨common :: below,temp⟩
      (above.map Prod.fst).reverse true failed.again []
    rw [processed,append_nil]
    show (entries ++ common :: below).map Prod.fst = _
    rw [map_append,blocks]

end

def sampleNode : Node Unit where
  process
    | [], _ => .error ()
    | top :: _, block =>
      if block.header.height = top.header.height + 1 ∧ block.header.previousBlockID = top.header.id ∧
        block.header.id ≠ List.replicate 32 9 then .ok [] else .error ()
  revert _ := .ok ()

def sampleSyncBlock (height : Nat) (id previous : UInt8) : Block :=
  ⟨{sampleBlockHeader with
    id := List.replicate 32 id, height := height, previousBlockID := List.replicate 32 previous
    generatorAddress := List.replicate 20 0, signature := List.replicate 64 0
    transactionRoot := Rmt.calculateRoot Smt.sampleSha [], assetRoot := Rmt.calculateRoot Smt.sampleSha []},[],[]⟩

def sampleSyncChain : Listed := ⟨[(sampleSyncBlock 2 2 1, []),(sampleSyncBlock 1 1 0, []),(sampleSyncBlock 0 0 0, [])],OrderedMap.empty⟩

def samplePeer (blocks : List Block) : Peer Unit := ⟨fun _ => .ok (List.replicate 32 0),[.ok blocks]⟩

def sampleSyncContext : SyncContext := ⟨sampleSyncBlock 2 9 3,0,[[1]]⟩

theorem sampleRegular : Regular sampleNode where
  next top chain block events accepted := by
    simp only [sampleNode] at accepted
    split at accepted
    · rename_i checks
      exact checks.1
    · cases accepted
  reverts _ := rfl

theorem sampleFailed (accepted : List Block) (rejected : Block) (downloads : downloadAndValidate asciiText Smt.sampleSha
      (downloaded sampleSyncContext.block.header.id (samplePeer blocks).blocksFromID) = .ok (accepted ++ [rejected]))
    (accepts : Accepts sampleNode [sampleSyncBlock 0 0 0] accepted)
    (rejects : sampleNode.process (accepted.reverse ++ [sampleSyncBlock 0 0 0]) rejected = .error ()) :
    FailedSync sampleNode asciiText Smt.sampleSha (samplePeer blocks) sampleSyncContext sampleSyncChain
      [(sampleSyncBlock 2 2 1,[]),(sampleSyncBlock 1 1 0,[])] (sampleSyncBlock 0 0 0,[]) [] accepted where
  regular := sampleRegular
  blocks := rfl
  consecutive i e at' := by
    match i with
    | 0 | 1 | 2 => rw [← Option.some.inj at']; rfl
    | i+3 => cases at'
  commonBlock last rest same := by
    obtain ⟨rfl,_⟩ := cons.inj same
    rfl
  finalized := Nat.zero_le _
  near last rest same := by
    obtain ⟨rfl,_⟩ := cons.inj same
    decide
  downloads := ⟨rejected,[],(),downloads,rejects⟩
  accepts := accepts
  again := ⟨⟨[],rfl⟩,⟨[],rfl⟩,trivial⟩
  temp := nofun

theorem fastSyncRestoresSample :
    (fastSync asciiText Smt.sampleSha sampleNode (samplePeer [sampleSyncBlock 1 1 0, sampleSyncBlock 2 9 1]) sampleSyncContext
      sampleSyncChain).chain.blocks.map Prod.fst = sampleSyncChain.blocks.map Prod.fst :=
  (fastSyncRestoresIff (sampleFailed [sampleSyncBlock 1 1 0] (sampleSyncBlock 2 9 1) (by decide +kernel) ⟨⟨[],rfl⟩,trivial⟩ rfl)).mpr
    ⟨[sampleSyncBlock 2 2 1],rfl⟩

theorem downloadedBlockRestored :
    FailedSync sampleNode asciiText Smt.sampleSha (samplePeer [sampleSyncBlock 1 3 0, sampleSyncBlock 2 9 3]) sampleSyncContext
      sampleSyncChain [(sampleSyncBlock 2 2 1, []), (sampleSyncBlock 1 1 0, [])] (sampleSyncBlock 0 0 0, []) []
      [sampleSyncBlock 1 3 0] ∧
    (fastSync asciiText Smt.sampleSha sampleNode (samplePeer [sampleSyncBlock 1 3 0, sampleSyncBlock 2 9 3]) sampleSyncContext
      sampleSyncChain).chain.blocks.map Prod.fst = [sampleSyncBlock 1 3 0, sampleSyncBlock 0 0 0] :=
  ⟨sampleFailed [sampleSyncBlock 1 3 0] (sampleSyncBlock 2 9 3) (by decide +kernel) ⟨⟨[],rfl⟩,trivial⟩ rfl,by decide +kernel⟩

end LiskEngine.Sync
