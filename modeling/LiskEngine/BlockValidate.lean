import LiskEngine.BlockCodec
import LiskEngine.Rmt
import LiskEngine.SmtRoot

/-! Static validation of a block against the roots in its header, and the root of
the events of a block. Strings of module names compare as their UTF-8 bytes do. -/
namespace LiskEngine

inductive BlockError where
  | previousBlockIDLength (received : Bytes)
  | generatorAddressLength (received : Bytes)
  | emptySignature
  | transactionRootMismatch
  | assetsNotSorted
  | assetsNotUnique
  | assetRootMismatch
  | runtimePanic
  deriving DecidableEq, Repr

def BlockHeader.validate (b : BlockHeader) : Except BlockError Unit :=
  if b.previousBlockID.length ≠ 32 then .error (.previousBlockIDLength b.previousBlockID)
  else if b.generatorAddress.length ≠ 20 then .error (.generatorAddressLength b.generatorAddress)
  else if b.signature.length ≠ 64 then .error .emptySignature
  else .ok ()

namespace Blockchain
open Codec

namespace BlockAssets

def sort (a : List BlockAsset) : List BlockAsset := a.insertionSort (fun x y => ¬y.module < x.module)

def validLoop : List BlockAsset → List BlockAsset → List String → Except BlockError Unit
  | _, [], _ => .ok ()
  | [], _ :: _, _ => .error .runtimePanic
  | copied :: later, asset :: rest, moduleMap =>
    if copied.module ≠ asset.module then .error .assetsNotSorted
    else if asset.module ∈ moduleMap then .error .assetsNotUnique
    else validLoop later rest (asset.module :: moduleMap)

def valid (a : List BlockAsset) : Except BlockError Unit := validLoop (sort a) a []

def getRoot (text : Normalizer) (sha : Bytes → Bytes) (a : List BlockAsset) : Option Bytes :=
  (a.mapM (BlockAsset.encode text)).map (Rmt.calculateRoot sha)

end BlockAssets

def Block.validate (text : Normalizer) (sha : Bytes → Bytes) (b : Block) : Except BlockError Unit := do
  b.header.validate
  let transactionRoot := Rmt.calculateRoot sha (b.transactions.map (·.id))
  if b.header.transactionRoot ≠ transactionRoot then .error .transactionRootMismatch
  else
    BlockAssets.valid b.assets
    match BlockAssets.getRoot text sha b.assets with
    | none => .error .runtimePanic
    | some assetsRoot => if b.header.assetRoot ≠ assetsRoot then .error .assetRootMismatch else .ok ()

theorem validateOk {text sha} {b : Block} (ok : b.validate text sha = .ok ()) :
    b.header.transactionRoot = Rmt.calculateRoot sha (b.transactions.map (·.id)) ∧
      BlockAssets.getRoot text sha b.assets = some b.header.assetRoot := by
  obtain ⟨_,_,ok⟩ := bindOk ok
  simp only at ok
  split at ok
  · cases ok
  rename_i txs
  obtain ⟨_,_,ok⟩ := bindOk ok
  refine ⟨not_not.mp txs,?_⟩
  split at ok
  · cases ok
  rename_i assetsRoot hit
  split at ok
  · cases ok
  · rename_i same
    rw [hit,not_not.mp same]

def fromUint32 (n : Nat) : Bytes := (List.range 4).map (fun k => UInt8.ofNat (n / 256 ^ (3 - k)))

def Event.schema : Schema :=
  .cons 1 .string (.cons 2 .string (.cons 3 .bytes (.cons 4 .bytesArray (.cons 5 .uint32 (.cons 6 .uint32 .nil)))))

def Event.value (e : Event) : Event.schema.Value := (e.module, e.name, e.data, e.topics, e.height, e.index, ())

def Event.encode (text : Normalizer) (e : Event) : Option Bytes := Event.schema.encode text e.value

def eventTopicHashLengthBytes : Nat := 8
def eventTotalIndexLengthBytes : Nat := 4

/-- One entry for each topic; the index has the position of the topic in its last two bits. -/
def Event.keyPairs (text : Normalizer) (sha : Bytes → Bytes) (e : Event) : Option (List (Bytes × Bytes)) :=
  (e.encode text).map (fun value => e.topics.zipIdx.map (fun topic =>
    ((sha topic.1).take eventTopicHashLengthBytes ++ fromUint32 (u32 (u32 (e.index * 4) + topic.2)), value)))

def calculateEventRoot (text : Normalizer) (sha : Bytes → Bytes) (events : List Event) : Except Smt.SmtError Bytes :=
  match events.mapM (Event.keyPairs text sha) with
  | none => .error .runtimePanic
  | some keyPairs => do
    let tree := Smt.newTrie sha (Smt.emptyHash sha) (eventTopicHashLengthBytes + eventTotalIndexLengthBytes)
    let (_, tree) ← tree.update sha Smt.idealStore.toDB OrderedMap.empty (keyPairs.flatten.map Prod.fst)
      (keyPairs.flatten.map Prod.snd)
    .ok tree.root

end Blockchain
end LiskEngine
