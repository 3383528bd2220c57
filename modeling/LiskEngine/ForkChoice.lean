import LiskEngine.VerifyBlock

/-! The fork choice between the last block and a received one. Times are unix times in
seconds; a block from syncing has no time of arrival. -/
namespace LiskEngine.Forkchoice
open Consensus

structure ForkChoice where
  slot : Engine
  lastHeader : BlockHeader
  currentHeader : BlockHeader
  lastBlockReceivedAt : Option Nat
  currentBlockReceivedAt : Nat

def isDifferentChain (lastMaxHeightPrevoted maxHeightPrevoted lastHeight height : Nat) : Bool :=
  lastMaxHeightPrevoted < maxHeightPrevoted || (lastHeight < height && lastMaxHeightPrevoted == maxHeightPrevoted)

namespace ForkChoice
variable (c : ForkChoice)

def isValidBlock : Bool :=
  u32 (c.lastHeader.height + 1) = c.currentHeader.height ∧ c.lastHeader.id = c.currentHeader.previousBlockID

def isIdenticalBlock : Bool := c.lastHeader.id = c.currentHeader.id

def isDuplicateBlock : Bool :=
  c.lastHeader.height = c.currentHeader.height ∧ c.lastHeader.maxHeightPrevoted = c.currentHeader.maxHeightPrevoted ∧
    c.lastHeader.previousBlockID = c.currentHeader.previousBlockID

def isDoubleForging : Bool := c.isDuplicateBlock ∧ c.lastHeader.generatorAddress = c.currentHeader.generatorAddress

def receivedBlockWithinForgingSlot : Bool :=
  c.slot.getSlotNumber c.currentBlockReceivedAt = c.slot.getSlotNumber c.currentHeader.timestamp

def receivedLastBlockWithinForgingSlot : Bool :=
  match c.lastBlockReceivedAt with
  | none => true
  | some receivedAt => c.slot.getSlotNumber receivedAt = c.slot.getSlotNumber c.lastHeader.timestamp

def isTieBreak : Bool :=
  c.isDuplicateBlock ∧ c.slot.getSlotNumber c.lastHeader.timestamp < c.slot.getSlotNumber c.currentHeader.timestamp ∧
    !c.receivedLastBlockWithinForgingSlot ∧ c.receivedBlockWithinForgingSlot

def isDifferentChain : Bool :=
  Forkchoice.isDifferentChain c.lastHeader.maxHeightPrevoted c.currentHeader.maxHeightPrevoted c.lastHeader.height
    c.currentHeader.height

end ForkChoice
end LiskEngine.Forkchoice
