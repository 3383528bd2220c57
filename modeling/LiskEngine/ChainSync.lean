import LiskEngine.BlockList

/-! What both syncers do with the chain: revert it to a block in common with the peer, and
process the blocks the peer sends. -/
namespace LiskEngine.Sync
open Blockchain List

inductive SyncError (ε : Type) where
  | request (e : ε)
  | commonBlockNotFound
  | dataNotFound
  | lowerThanFinalized
  | heightDifference
  | invalid (e : BlockError)
  | rejected (e : ε)
  | nilBlock
  deriving DecidableEq, Repr

/-- The verdicts on a block over a chain of blocks, with the events of an accepted one, and on the removal of the
last block. -/
structure Node (ε : Type) where
  process : List Block → Block → Except ε (List Event)
  revert : List Block → Except ε Unit

section
variable {ε : Type}

namespace Node

def processor (n : Node ε) (l : Listed) (block : Block) (removeTemp : Bool) : Except ε Listed :=
  (n.process (l.blocks.map Prod.fst) block).map (fun events => l.save block events removeTemp)

def reverter (n : Node ε) (l : Listed) (block : Block) (saveTemp : Bool) : Except ε Listed :=
  (n.revert (l.blocks.map Prod.fst)).map (fun _ => l.remove block saveTemp)

end Node

/-- The loop over the last block, which is the head of the list. A refused removal leaves what is reverted so far. -/
def deleteLoop (n : Node ε) (height : Nat) : List (Block × List Event) → OrderedMap Nat Block →
    Except (SyncError ε) Unit × Listed
  | [], temp => (.error .nilBlock, ⟨[],temp⟩)
  | last :: rest, temp =>
    if last.1.header.height = height then (.ok (), ⟨last :: rest,temp⟩)
    else match n.reverter ⟨last :: rest,temp⟩ last.1 true with
      | .error e => (.error (.rejected e), ⟨last :: rest,temp⟩)
      | .ok l => deleteLoop n height rest l.temp

def deleteTillCommonBlock (n : Node ε) (l : Listed) (commonBlock : BlockHeader) : Except (SyncError ε) Unit × Listed :=
  deleteLoop n commonBlock.height l.blocks l.temp

def processBlocks (n : Node ε) (removeTemp : Bool) : List Block → Listed → Option ε × Listed
  | [], l => (none, l)
  | block :: rest, l => match n.processor l block removeTemp with
    | .error e => (some e, l)
    | .ok l => processBlocks n removeTemp rest l

def sortBlockByHeightAsc (blocks : List Block) : List Block :=
  blocks.insertionSort (fun a b => a.header.height ≤ b.header.height)

def getTempBlocks (l : Listed) : List Block := l.temp.entries.reverse.map Prod.snd

/-- What the downloader sends for the answers of the peer to its requests, one after the other. When there is no
further answer, the context has ended. -/
def downloaded (endID : Bytes) : List (Except ε (List Block)) → List (Except ε Block)
  | [] => []
  | .error e :: _ => [.error e]
  | .ok blocks :: rest =>
    let sorted := sortBlockByHeightAsc blocks
    match sorted.findIdx? (fun b => b.header.id = endID) with
    | some last => (sorted.take (last + 1)).map .ok
    | none => sorted.map .ok ++ downloaded endID rest

def Accepts (n : Node ε) : List Block → List Block → Prop
  | _, [] => True
  | chain, block :: rest => (∃ events, n.process chain block = .ok events) ∧ Accepts n (block :: chain) rest

section
variable {n : Node ε} {above below : List (Block × List Event)} {common : Block × List Event} {tip : Nat} {l : Listed}
  {bs : List Block}

theorem deleteLoopSpec (reverts : ∀ chain, n.revert chain = .ok ()) (consec : Consecutive (above ++ common::below) tip)
    (temp : OrderedMap Nat Block) :
    ∃ temp', deleteLoop n (entryHeight common) (above ++ common::below) temp = (.ok (),⟨common::below,temp'⟩) ∧
      ∀ height, temp'.get height = if entryHeight common < height ∧ height ≤ tip then (above[tip-height]?).map Prod.fst
        else temp.get height := by
  induction above generalizing tip temp with
  | nil =>
    have own := consec 0 common rfl
    exact ⟨temp,if_pos rfl,fun height => by rw [if_neg (by omega)]⟩
  | cons last rest ih =>
    have own := consec 0 last rfl
    have lower := consec (rest.length+1) common (by simp)
    obtain ⟨temp',deleted,held⟩ := ih consec.tail (temp.set tip last.1)
    refine ⟨temp',?_,fun height => ?_⟩
    · have other : last.1.header.height ≠ entryHeight common := by
        show entryHeight last ≠ _
        omega
      simp only [cons_append,deleteLoop,if_neg other,Node.reverter,reverts,Except.map,Listed.remove,if_true]
      rw [← deleted,← own]
      rfl
    · rw [held,OrderedMap.getSet]
      rcases Nat.lt_trichotomy height tip with smaller | same | more
      · have index : tip-height = tip-1-height+1 := by omega
        rw [if_neg smaller.ne,index,getElem?_cons_succ]
        split <;> rename_i inside
        · rw [if_pos ⟨inside.1,smaller.le⟩]
        · rw [if_neg (by omega)]
      · rw [if_neg (by omega),if_pos same,if_pos (by omega),same,Nat.sub_self]
        rfl
      · rw [if_neg (by omega),if_neg more.ne',if_neg (by omega)]

theorem processOk (acc : n.process (l.blocks.map Prod.fst) block = .ok events) :
    processBlocks n removeTemp (block::bs) l = processBlocks n removeTemp bs (l.save block events removeTemp) := by
  simp only [processBlocks,Node.processor,acc,Except.map]

theorem processError (rejected : n.process (l.blocks.map Prod.fst) block = .error e) :
    processBlocks n removeTemp (block::bs) l = (some e,l) := by
  simp only [processBlocks,Node.processor,rejected,Except.map]

theorem processAccepted {removeTemp} (accepts : Accepts n (l.blocks.map Prod.fst) bs) (others : List Block) :
    ∃ es temp, processBlocks n removeTemp (bs ++ others) l = processBlocks n removeTemp others ⟨es ++ l.blocks,temp⟩ ∧
      es.map Prod.fst = bs.reverse ∧ (removeTemp = false → temp = l.temp) := by
  induction bs generalizing l with
  | nil => exact ⟨[],l.temp,rfl,rfl,fun _ => rfl⟩
  | cons block rest ih =>
    obtain ⟨⟨events,acc⟩,later⟩ := accepts
    obtain ⟨es,temp,processed,blocks,kept⟩ := @ih (l.save block events removeTemp) later
    refine ⟨es ++ [(block,events)],temp,?_,?_,fun keep => ?_⟩
    · rw [cons_append,processOk acc,processed,append_assoc]
      rfl
    · rw [map_append,blocks,reverse_cons]
      rfl
    · rw [kept keep,Listed.save,keep]
      rfl

theorem processExtends (removeTemp : Bool) (bs : List Block) (l : Listed) :
    ∃ done, done <+: bs ∧ (processBlocks n removeTemp bs l).2.blocks.map Prod.fst = done.reverse ++ l.blocks.map Prod.fst := by
  induction bs generalizing l with
  | nil => exact ⟨[],prefix_rfl,rfl⟩
  | cons block rest ih =>
    cases verdict : n.process (l.blocks.map Prod.fst) block with
    | error e => exact ⟨[], nil_prefix,by rw [processError verdict]; rfl⟩
    | ok events =>
      obtain ⟨done,first,blocks⟩ := ih (l.save block events removeTemp)
      refine ⟨block::done,cons_prefix_cons.mpr ⟨rfl,first⟩,?_⟩
      rw [processOk verdict,blocks,reverse_cons,append_assoc]
      rfl

end

end

end LiskEngine.Sync
