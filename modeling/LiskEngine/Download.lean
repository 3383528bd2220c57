import Mathlib.Data.Nat.Find
import LiskEngine.ChainSync

/-! The downloader of a range of blocks. It asks for the blocks after the last one it has
fetched until the peer fails, the context ends or the end block arrives; the heights of the
range limit neither the requests nor the blocks. -/
namespace LiskEngine.Sync
open Blockchain List Bool

structure Downloader (ε : Type) where
  start : Bytes
  startHeight : Nat
  endID : Bytes
  endHeight : Nat
  lastFetchedHeight : Nat
  lastFetchedID : Bytes
  downloaded : List (Except ε Block)

def newDownloader {ε : Type} (startID : Bytes) (startHeight : Nat) (endID : Bytes) (endHeight : Nat) : Downloader ε :=
  ⟨startID,startHeight,endID,endHeight,0,[],[]⟩

inductive Turn (ε : Type) where
  | ended
  | reply (answer : Except ε (List Block))

structure Loop (ε : Type) where
  downloader : Downloader ε
  startID : Bytes
  requests : List Bytes
  returned : Bool

section
variable {ε : Type}

namespace Downloader

def send (d : Downloader ε) : List Block → Downloader ε × Bool
  | [] => (d, false)
  | block :: rest =>
    let d := {d with
      lastFetchedID := block.header.id
      lastFetchedHeight := block.header.height
      downloaded := d.downloaded ++ [.ok block]}
    if block.header.id = d.endID then (d, true) else d.send rest

def blocks (d : Downloader ε) : Nat := d.downloaded.countP (fun content => content.toOption.isSome)

end Downloader

def Loop.turn (l : Loop ε) : Turn ε → Loop ε
  | .ended => {l with returned := true}
  | .reply (.error e) =>
    {l with
      downloader := {l.downloader with downloaded := l.downloader.downloaded ++ [.error e]}
      requests := l.requests ++ [l.startID]
      returned := true}
  | .reply (.ok blocks) =>
    let (downloader, returned) := l.downloader.send (sortBlockByHeightAsc blocks)
    ⟨downloader,downloader.lastFetchedID,l.requests ++ [l.startID],returned⟩

def Loop.passes (l : Loop ε) (turns : Nat → Turn ε) : Nat → Loop ε
  | 0 => l
  | k + 1 =>
    let l := l.passes turns k
    if l.returned then l else l.turn (turns k)

def Downloader.passes (d : Downloader ε) (turns : Nat → Turn ε) (k : Nat) : Loop ε :=
  (⟨d,d.start,[],false⟩ : Loop ε).passes turns k

def Ends (endID : Bytes) : Turn ε → Prop
  | .ended => True
  | .reply (.error _) => True
  | .reply (.ok blocks) => endID ∈ blocks.map (·.header.id)

def requestsIn : Turn ε → Nat
  | .ended => 0
  | .reply _ => 1

def sentOf (endID : Bytes) (blocks : List Block) : List Block :=
  match blocks.findIdx? (fun b => b.header.id = endID) with
  | some last => blocks.take (last + 1)
  | none => blocks

def blocksIn (endID : Bytes) : Turn ε → Nat
  | .ended => 0
  | .reply (.error _) => 0
  | .reply (.ok blocks) => (sentOf endID (sortBlockByHeightAsc blocks)).length

theorem sentOfCons (endID : Bytes) (block : Block) (rest : List Block) :
    sentOf endID (block::rest) = block::if block.header.id = endID then [] else sentOf endID rest := by
  unfold sentOf
  rw [findIdx?_cons]
  by_cases isEnd : block.header.id = endID
  · simp [isEnd]
  simp only [isEnd,decide_false,false_eq_true,if_false]
  cases rest.findIdx? (·.header.id = endID) with
  | none | some last => rfl

theorem sendSpec (d : Downloader ε) (blocks : List Block) :
    (d.send blocks).1.endID = d.endID ∧ (d.send blocks).1.downloaded = d.downloaded ++ (sentOf d.endID blocks).map .ok ∧
      ((d.send blocks).2 = true ↔ d.endID ∈ blocks.map (·.header.id)) := by
  induction blocks generalizing d with
  | nil => simp [Downloader.send,sentOf]
  | cons block rest ih =>
    rw [Downloader.send,sentOfCons]
    by_cases isEnd : block.header.id = d.endID
    · simp [isEnd]
    simp only [isEnd,if_false]
    obtain ⟨sameEnd,sent,ends⟩ := ih {d with
      lastFetchedID := block.header.id
      lastFetchedHeight := block.header.height
      downloaded := d.downloaded ++ [.ok block]}
    refine ⟨sameEnd,?_,ends.trans ?_⟩
    · rw [sent]
      simp
    · simp [Ne.symm isEnd]

theorem turnSpec (l : Loop ε) (turn : Turn ε) : (l.turn turn).downloader.endID = l.downloader.endID ∧
      (l.turn turn).requests.length = l.requests.length+requestsIn turn ∧
      (l.turn turn).downloader.blocks = l.downloader.blocks+blocksIn l.downloader.endID turn ∧
      ((l.turn turn).returned = true ↔ Ends l.downloader.endID turn) := by
  cases turn with
  | ended => exact ⟨rfl,rfl,rfl,by simp [Loop.turn,Ends]⟩
  | reply answer =>
    cases answer with
    | error e =>
      refine ⟨rfl,by simp [Loop.turn,requestsIn],?_,by simp [Loop.turn,Ends]⟩
      simp [Loop.turn,blocksIn,Downloader.blocks,Except.toOption]
    | ok blocks =>
      obtain ⟨sameEnd,sent,ends⟩ := sendSpec l.downloader (sortBlockByHeightAsc blocks)
      have sameIDs : l.downloader.endID ∈ (sortBlockByHeightAsc blocks).map (·.header.id) ↔
          l.downloader.endID ∈ blocks.map (·.header.id) := ((perm_insertionSort _ blocks).map _).mem_iff
      refine ⟨sameEnd,by simp [Loop.turn,requestsIn],?_,ends.trans sameIDs⟩
      have all : ((sentOf l.downloader.endID (sortBlockByHeightAsc blocks)).map (Except.ok (ε := ε))).countP
          (·.toOption.isSome) = (sentOf l.downloader.endID (sortBlockByHeightAsc blocks)).length := by
        rw [countP_map,countP_eq_length]
        exact fun _ _ => rfl
      simp only [Loop.turn,Downloader.blocks,blocksIn]
      rw [sent,countP_append,all]

def totalOf (count : Turn ε → Nat) (turns : Nat → Turn ε) (k : Nat) : Nat :=
  ((List.range k).map (fun i => count (turns i))).sum

theorem totalSucc (count : Turn ε → Nat) (turns : Nat → Turn ε) (k : Nat) :
    totalOf count turns (k+1) = totalOf count turns k+count (turns k) := by
  simp [totalOf,range_succ]

theorem totalMono (count : Turn ε → Nat) (turns : Nat → Turn ε) (more : j ≤ k) : totalOf count turns j ≤ totalOf count turns k := by
  induction more with
  | refl => exact le_refl _
  | step _ ih =>
    rw [totalSucc]
    exact ih.trans (Nat.le_add_right _ _)

theorem passesSucc (d : Downloader ε) (turns : Nat → Turn ε) (k : Nat) :
    d.passes turns (k+1) = if (d.passes turns k).returned then d.passes turns k else (d.passes turns k).turn (turns k) := rfl

section
variable (d : Downloader ε) (turns : Nat → Turn ε)

theorem passesEnd (k : Nat) : (d.passes turns k).downloader.endID = d.endID := by
  induction k with
  | zero => rfl
  | succ k ih =>
    rw [passesSucc]
    split
    · exact ih
    · exact (turnSpec _ _).1.trans ih

theorem passesTotal (goesOn : ∀ i < k, ¬Ends d.endID (turns i)) :
    (d.passes turns k).returned = false ∧ (d.passes turns k).requests.length = totalOf requestsIn turns k ∧
      (d.passes turns k).downloader.blocks = d.blocks+totalOf (blocksIn d.endID) turns k := by
  induction k with
  | zero => exact ⟨rfl,rfl,rfl⟩
  | succ k ih =>
    obtain ⟨runs,requests,blocks⟩ := ih (fun i earlier => goesOn i (Nat.lt_succ_of_lt earlier))
    obtain ⟨_,requests',blocks',ends⟩ := turnSpec (d.passes turns k) (turns k)
    rw [passesEnd] at blocks' ends
    rw [passesSucc,runs,if_neg Bool.false_ne_true]
    refine ⟨eq_false_iff.mpr (fun returned => goesOn k (Nat.lt_succ_self k) (ends.mp returned)),?_,?_⟩
    · rw [requests',requests,totalSucc]
    · rw [blocks',blocks,totalSucc,add_assoc]

theorem passesEnded (goesOn : ∀ i < j, ¬Ends d.endID (turns i)) (ends : Ends d.endID (turns j)) :
    ∀ k > j, (d.passes turns k).returned = true ∧ (d.passes turns k).requests.length = totalOf requestsIn turns (j+1) ∧
      (d.passes turns k).downloader.blocks = d.blocks+totalOf (blocksIn d.endID) turns (j+1) := by
  intro k later
  induction later with
  | refl =>
    obtain ⟨runs,requests,blocks⟩ := passesTotal d turns goesOn
    obtain ⟨_,requests',blocks',returned⟩ := turnSpec (d.passes turns j) (turns j)
    rw [passesEnd] at blocks' returned
    rw [passesSucc,runs,if_neg Bool.false_ne_true]
    refine ⟨returned.mpr ends,?_,?_⟩
    · rw [requests',requests,totalSucc]
    · rw [blocks',blocks,totalSucc,add_assoc]
  | step _ ih =>
    rw [passesSucc,if_pos ih.1]
    exact ih

theorem firstEnd (ends : Ends endID (turns j)) : ∃ first ≤ j, Ends endID (turns first) ∧ ∀ i < first, ¬Ends endID (turns i) := by
  classical
  have found : ∃ j, Ends endID (turns j) := ⟨j,ends⟩
  exact ⟨Nat.find found,Nat.find_min' found ends,Nat.find_spec found,fun _ earlier => Nat.find_min found earlier⟩

theorem totalRequests (goesOn : ∀ i < k, ¬Ends endID (turns i)) : totalOf requestsIn turns k = k := by
  induction k with
  | zero => rfl
  | succ k ih =>
    have asked : requestsIn (turns k) = 1 := by
      cases turn : turns k with
      | ended => exact absurd (by simp [turn,Ends]) (goesOn k (Nat.lt_succ_self k))
      | reply => rfl
    rw [totalSucc,ih (fun i earlier => goesOn i (Nat.lt_succ_of_lt earlier)),asked]

end

theorem downloadBoundedIff (startID endID : Bytes) (startHeight endHeight : Nat) (turns : Nat → Turn ε) :
    (∀ k, ((newDownloader startID startHeight endID endHeight).passes turns k).requests.length
          ≤ (endHeight : Int) - startHeight + 1 ∧
        ((newDownloader startID startHeight endID endHeight).passes turns k).downloader.blocks
          ≤ (endHeight : Int) - startHeight) ↔
      ∃ j, Ends endID (turns j) ∧ totalOf requestsIn turns (j + 1) ≤ (endHeight : Int) - startHeight + 1 ∧
        totalOf (blocksIn endID) turns (j + 1) ≤ (endHeight : Int) - startHeight := by
  have counted (k : Nat) : (newDownloader startID startHeight endID endHeight : Downloader ε).blocks +
      totalOf (blocksIn (newDownloader startID startHeight endID endHeight : Downloader ε).endID) turns k =
        totalOf (blocksIn endID) turns k := Nat.zero_add _
  constructor
  · intro bounded
    by_cases stops : ∃ j, Ends endID (turns j)
    · obtain ⟨j,ends⟩ := stops
      obtain ⟨first,_,ends,goesOn⟩ := firstEnd turns ends
      obtain ⟨_,requests,blocks⟩ :=
        passesEnded (newDownloader startID startHeight endID endHeight) turns goesOn ends _ (Nat.lt_succ_self first)
      have atMost := bounded (first + 1)
      rw [requests,blocks,counted] at atMost
      exact ⟨first,ends,atMost⟩
    · have goesOn : ∀ i < ((endHeight : Int) - startHeight + 2).toNat, ¬Ends endID (turns i) := fun i _ ends => stops ⟨i,ends⟩
      have requests := (passesTotal (newDownloader startID startHeight endID endHeight) turns goesOn).2.1
      have atMost := (bounded ((endHeight : Int) - startHeight + 2).toNat).1
      rw [requests,totalRequests turns goesOn] at atMost
      omega
  · rintro ⟨j,ends,requestsBound,blocksBound⟩ k
    obtain ⟨first,notLater,ends,goesOn⟩ := firstEnd turns ends
    have fewer := totalMono requestsIn turns (Nat.add_le_add_right notLater 1)
    have fewerBlocks := totalMono (blocksIn endID) turns (Nat.add_le_add_right notLater 1)
    rcases Nat.lt_or_ge first k with later | within
    · obtain ⟨_,requests,blocks⟩ := passesEnded (newDownloader startID startHeight endID endHeight) turns goesOn ends k later
      rw [requests,blocks,counted]
      omega
    · obtain ⟨_,requests,blocks⟩ := passesTotal (newDownloader startID startHeight endID endHeight) turns
        (fun i earlier => goesOn i (earlier.trans_le within))
      have fewer' := totalMono requestsIn turns (Nat.le_add_right_of_le within : k ≤ first + 1)
      have fewerBlocks' := totalMono (blocksIn endID) turns (Nat.le_add_right_of_le within : k ≤ first + 1)
      rw [requests,blocks,counted]
      omega

theorem oneBlockRepeated : let block : Block := ⟨{sampleBlockHeader with id := [2], height := 2},[],[]⟩
    let loop := (newDownloader [1] 1 [3] 2 : Downloader Unit).passes (fun _ => .reply (.ok [block])) 3
    loop.requests = [[1],[2],[2]] ∧ loop.downloader.blocks = 3 ∧ loop.returned = false := by
  refine ⟨by decide +kernel,by decide +kernel,by decide +kernel⟩

end

end LiskEngine.Sync
