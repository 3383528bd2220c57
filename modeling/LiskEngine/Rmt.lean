import LiskEngine.SplitTree
import LiskEngine.OrderedMap
import LiskEngine.Codec

/-! The regular Merkle tree: append, update, reload, proofs and their verification.
Both node tables lie under one database prefix; a key there is a hash or the sixteen
bytes of a location. Logarithms are exact. -/
namespace LiskEngine.Rmt
open Codec (CodecError Normalizer Schema)

inductive RmtError where
  | locationNotFound (hash : Bytes)
  | hashNotFound (hash : Bytes)
  | infoNotFound
  | codec (error : CodecError)
  | indexNotAtLeaf
  | sizesDiffer
  | emptyQuery
  | hashMissing (idx : Nat)
  | invalidQueryHashes
  | rootMissing
  | siblingNotFound
  | invalidHeight (height layerIndex : Nat)
  | indexNotFromOne
  | parseSyntax
  | parseRange
  | invalidProof
  | updateSizesDiffer
  | invalidPath
  | runtimePanic
  | outOfFuel
  deriving DecidableEq, Repr

abbrev Db := OrderedMap Bytes Bytes

structure NodeLocation where
  nodeIndex : Nat
  layerIndex : Nat
  deriving DecidableEq, Repr

structure Proof where
  size : Nat
  idxs : List Nat
  siblingHashes : List Bytes
  deriving DecidableEq, Repr

structure RegularMerkleTree where
  root : Bytes
  appendPath : List Bytes
  size : Nat
  db : Db
  deriving DecidableEq

def rootIndex : Nat := 2
def storePrefixInfo : UInt8 := 0
def storePrefixHashToLoc : UInt8 := 1

section
variable (sha : Bytes → Bytes)

def emptyHash : Bytes := sha []

def leafHash (msg : Bytes) : Bytes := sha (0 :: msg)

def branchHash (msg : Bytes) : Bytes := sha (1 :: msg)

def calculateRoot (data : List Bytes) : Bytes :=
  SplitTree.root (leafHash sha) (fun left right => branchHash sha (left ++ right)) (emptyHash sha) data

end

/-- Not called for an empty tree. -/
def getHeight (size : Nat) : Nat := Nat.clog 2 size + 1

def layerLoop : Nat → Nat × Nat → Nat × Nat
  | 0, state => state
  | j + 1, (max, r) => layerLoop j (if r % 2 = 0 then max / 2 else (max + 1) / 2, r + max % 2)

def getLayerStructure (size : Nat) : List Nat :=
  (List.range (getHeight size)).map (fun layer => (layerLoop layer (size, 0)).1)

def formatInt (idx : Nat) : List Char :=
  if idx < 9223372036854775808 then Nat.toDigits 2 idx else '-' :: Nat.toDigits 2 (18446744073709551616 - idx)

def parseInt (digits : List Char) : Except RmtError Nat :=
  if digits = [] ∨ digits.any (fun c => c ≠ '0' ∧ c ≠ '1') then .error .parseSyntax
  else
    let value := digits.foldl (fun acc c => 2 * acc + if c = '1' then 1 else 0) 0
    if value < 2147483648 then .ok value else .error .parseRange

def length (idx : Nat) : Nat := (formatInt idx).length

def areSameLayer (idx1 idx2 : Nat) : Bool := length idx1 = length idx2

def areSiblings (idx1 idx2 : Nat) : Bool := idx1 ^^^ idx2 = 1

def isLeft (index : Nat) : Bool := index % 2 = 0

def fromUint64 (n : Nat) : Bytes := (List.range 8).map (fun k => UInt8.ofNat (n / 256 ^ (7 - k)))

def toUint64 (key : Bytes) : Nat := (key.take 8).foldl (fun acc byte => 256 * acc + byte.toNat) 0

namespace NodeLocation

def key (l : NodeLocation) : Bytes := fromUint64 l.layerIndex ++ fromUint64 l.nodeIndex

/-- Above the height the length wraps to a negative int, so that nothing is padded. -/
def index (l : NodeLocation) (height : Nat) : Except RmtError Nat :=
  if height = l.layerIndex then .error (.invalidHeight height l.layerIndex)
  else
    let numStr := formatInt l.nodeIndex
    parseInt ('1' :: (List.replicate (height - l.layerIndex - numStr.length) '0' ++ numStr))

end NodeLocation

def newNodeLocationFromKey (key : Bytes) : Except RmtError NodeLocation :=
  if key.length < 16 then .error .runtimePanic else .ok ⟨toUint64 (key.drop 8),toUint64 key⟩

def newNodeLocation (index height : Nat) : Except RmtError NodeLocation :=
  match formatInt index with
  | '1' :: digits => do
    let nodeIndex ← parseInt digits
    if height < digits.length then .error (.invalidHeight height digits.length)
    else .ok ⟨nodeIndex,height - digits.length⟩
  | _ => .error .indexNotFromOne

def siblingDown (layers : List Nat) : Nat → Nat → Except RmtError NodeLocation
  | node, 0 => if layers[0]?.isSome then .ok ⟨node,0⟩ else .error .runtimePanic
  | node, layer + 1 =>
    match layers[layer + 1]? with
    | none => .error .runtimePanic
    | some width => if width ≤ node then siblingDown layers (u64 (2 * node)) layer else .ok ⟨node,layer + 1⟩

def getRightSiblingInfo (nodeIndex layerIndex size : Nat) : Except RmtError (Option NodeLocation) := do
  let found ← siblingDown (getLayerStructure size) (nodeIndex / 2 * 2 + (nodeIndex + 1) % 2) layerIndex
  if size ≤ found.nodeIndex then .ok none else .ok (some found)

namespace Indexes

def less (i j : Nat) : Prop := if length i = length j then i < j else j < i

instance (i j : Nat) : Decidable (less i j) := by
  unfold less
  infer_instance

def sort (idxs : List Nat) : List Nat := idxs.insertionSort (fun i j => ¬less j i)

/-- The low bound is one more than in the source, which starts it at -1. -/
def findInsertLoop (arr : List Nat) (idx : Nat) : Nat → Nat → Nat → Nat
  | 0, _, high => high
  | fuel + 1, low, high =>
    if low < high then
      let middle := low + (high - low + 1) / 2 - 1
      match arr[middle]? with
      | none => high
      | some middleVal =>
        if middleVal = idx then middle
        else if less idx middleVal then findInsertLoop arr idx fuel low middle
        else findInsertLoop arr idx fuel (middle + 1) high
    else high

def findInsertIndex (arr : List Nat) (idx : Nat) : Nat := findInsertLoop arr idx arr.length 0 arr.length

def insert (idxs : List Nat) (idx : Nat) : List Nat :=
  let index := findInsertIndex idxs idx
  if idxs[index]? = some idx then idxs else idxs.take index ++ idx :: idxs.drop index

def remove (idxs : List Nat) (val : Nat) : List Nat := idxs.filter (fun idx => idx ≠ val)

end Indexes

structure PathState where
  siblingHashes : List Bytes
  result : OrderedMap Nat Bytes
  parentCache : OrderedMap Nat Bytes

section
variable (sha : Bytes → Bytes)

def takeSibling (state : PathState) (siblingIdx : Nat) : Except RmtError (Bytes × List Bytes) :=
  match state.result.get siblingIdx with
  | some siblingHash => .ok (siblingHash, state.siblingHashes)
  | none =>
    match state.siblingHashes with
    | [] => .error .runtimePanic
    | siblingHash :: rest => .ok (siblingHash, rest)

def parentData (idx : Nat) (currentHash siblingHash : Bytes) : Bytes :=
  if isLeft idx then currentHash ++ siblingHash else siblingHash ++ currentHash

def siblingOf (size height idx : Nat) : Except RmtError (Option (NodeLocation × Nat)) := do
  let currentLoc ← newNodeLocation idx height
  match ← getRightSiblingInfo currentLoc.nodeIndex currentLoc.layerIndex size with
  | none => .ok none
  | some siblingLoc => do
    let siblingIdx ← siblingLoc.index height
    .ok (some (siblingLoc, siblingIdx))

def setParent (state : PathState) (parentIdx : Nat) (parentHash : Bytes) (siblingHashes : List Bytes) :
    Except RmtError PathState :=
  match state.result.get parentIdx with
  | some existing =>
    if existing = parentHash then .ok ⟨siblingHashes,state.result.set parentIdx parentHash,state.parentCache⟩
    else .error .invalidQueryHashes
  | none => .ok ⟨siblingHashes,state.result.set parentIdx parentHash,state.parentCache⟩

def pathStep (size height idx : Nat) (state : PathState) : Except RmtError PathState :=
  match (state.result.get idx).or (state.parentCache.get idx) with
  | none => .error (.hashMissing idx)
  | some currentHash => do
    match ← siblingOf size height idx with
    | none => .ok {state with parentCache := state.parentCache.set (idx / 2) currentHash}
    | some (_, siblingIdx) => do
      let (siblingHash, siblingHashes) ← takeSibling state siblingIdx
      setParent state (idx / 2) (branchHash sha (parentData idx currentHash siblingHash)) siblingHashes

def pathLoop (size height : Nat) : Nat → List Nat → PathState → Except RmtError (OrderedMap Nat Bytes)
  | 0, _, _ => .error .outOfFuel
  | _ + 1, [], state => .ok state.result
  | fuel + 1, idx :: rest, state =>
    if idx = rootIndex then .ok state.result
    else do
      let state ← pathStep sha size height idx state
      pathLoop size height fuel (Indexes.insert rest (idx / 2)) state

def roundsOf (idxs : List Nat) : Nat := idxs.sum + 1

def givenNodes (idxs : List Nat) (queryHashes : List Bytes) : OrderedMap Nat Bytes :=
  (idxs.zip queryHashes).foldl (fun result e => if e.1 = 0 then result else result.set e.1 e.2) OrderedMap.empty

def calculatePathNodes (queryHashes : List Bytes) (size : Nat) (idxs : List Nat) (siblingHashes : List Bytes) :
    Except RmtError (OrderedMap Nat Bytes) :=
  if queryHashes.length ≠ idxs.length then .error .sizesDiffer
  else if queryHashes.length = 0 then .error .emptyQuery
  else
    let sortedIndexes := Indexes.sort (idxs.filter (fun idx => idx ≠ 0))
    pathLoop sha size (getHeight size) (roundsOf sortedIndexes) sortedIndexes
      ⟨siblingHashes,givenNodes idxs queryHashes,OrderedMap.empty⟩

/-- A panic is not caught. -/
def verifyProof (queryHashes : List Bytes) (proof : Proof) (rootHash : Bytes) : Except RmtError Bool :=
  if proof.size = 0 then .ok false
  else
    match calculatePathNodes sha queryHashes proof.size proof.idxs proof.siblingHashes with
    | .error .runtimePanic => .error .runtimePanic
    | .error _ => .ok false
    | .ok calculatedTree =>
      match calculatedTree.get rootIndex with
      | none => .ok false
      | some calculatedRoot => .ok (calculatedRoot = rootHash)

def calculateRootFromUpdateData (updateData : List Bytes) (proof : Proof) : Except RmtError Bytes :=
  if proof.size = 0 ∨ proof.idxs.length = 0 then .error .invalidProof
  else if updateData.length ≠ proof.idxs.length then .error .updateSizesDiffer
  else do
    let calculatedTree ← calculatePathNodes sha (updateData.map (leafHash sha)) proof.size proof.idxs proof.siblingHashes
    match calculatedTree.get rootIndex with
    | none => .error .invalidPath
    | some root => .ok root

end

def getHash (db : Db) (loc : NodeLocation) : Option Bytes := db.get (storePrefixHashToLoc :: loc.key)

def getLocation (db : Db) (hash : Bytes) : Except RmtError NodeLocation :=
  match db.get (storePrefixHashToLoc :: hash) with
  | none => .error (.locationNotFound hash)
  | some locKey => newNodeLocationFromKey locKey

def saveNode (db : Db) (hash : Bytes) (loc : NodeLocation) : Db :=
  (db.set (storePrefixHashToLoc :: hash) loc.key).set (storePrefixHashToLoc :: loc.key) hash

/-- The key deleted is the hash itself, without the prefix of the table. -/
def replaceNode (db : Db) (hash : Bytes) (loc : NodeLocation) : Except RmtError Db :=
  match getHash db loc with
  | none => .error (.hashNotFound hash)
  | some prevValue => .ok (saveNode (db.del prevValue) hash loc)

def paired (currentIdx : Nat) : List Nat → Bool
  | [] => false
  | next :: _ => isLeft currentIdx && areSameLayer currentIdx next && areSiblings currentIdx next

def siblingLoop (db : Db) (size height : Nat) (originalIdxs : List Nat) :
    Nat → List Nat → List Bytes → Except RmtError (List Bytes)
  | 0, _, _ => .error .outOfFuel
  | _ + 1, [], siblingHashes => .ok siblingHashes
  | fuel + 1, currentIdx :: rest, siblingHashes =>
    if paired currentIdx rest then
      siblingLoop db size height originalIdxs fuel (Indexes.insert rest.tail (currentIdx / 2)) siblingHashes
    else if currentIdx = rootIndex then .ok siblingHashes
    else do
      let others := Indexes.insert (Indexes.remove (currentIdx :: rest) currentIdx) (currentIdx / 2)
      match ← siblingOf size height currentIdx with
      | none => siblingLoop db size height originalIdxs fuel others siblingHashes
      | some (siblingLoc, siblingIdx) =>
        if siblingIdx ∈ originalIdxs then siblingLoop db size height originalIdxs fuel others siblingHashes
        else
          match getHash db siblingLoc with
          | none => .error .siblingNotFound
          | some siblingHash => siblingLoop db size height originalIdxs fuel others (siblingHashes ++ [siblingHash])

def info : Schema := .cons 1 .bytes (.cons 2 .bytesArray (.cons 3 .uint64 .nil))

namespace RegularMerkleTree

def new (sha : Bytes → Bytes) (db : Db) : RegularMerkleTree := ⟨emptyHash sha,[],0,db⟩

section
variable (text : Normalizer)

def saveInfo (d : RegularMerkleTree) : Except RmtError RegularMerkleTree :=
  match info.encode text (d.root, d.appendPath, d.size, ()) with
  | none => .error .runtimePanic
  | some infoByte => .ok {d with db := d.db.set [storePrefixInfo] infoByte}

def withPastData (db : Db) : Except RmtError RegularMerkleTree :=
  match db.get [storePrefixInfo] with
  | none => .error .infoNotFound
  | some infoByte =>
    match info.decode text infoByte with
    | .error e => .error (.codec e)
    | .ok (root, appendPath, size, _) => .ok ⟨root,appendPath,size,db⟩

end

def getIndexes (d : RegularMerkleTree) : List Bytes → Except RmtError (List Nat)
  | [] => .ok []
  | query :: rest =>
    match getLocation d.db query with
    | .error .runtimePanic => .error .runtimePanic
    | .error _ => do
      let idxs ← getIndexes d rest
      .ok (0 :: idxs)
    | .ok loc => do
      let idx ← loc.index (getHeight d.size)
      let idxs ← getIndexes d rest
      .ok (idx :: idxs)

def getSiblingHashes (d : RegularMerkleTree) (idxs : List Nat) : Except RmtError (List Bytes) :=
  let sortedIdxs := Indexes.sort (idxs.filter (fun idx => idx ≠ 0))
  siblingLoop d.db d.size (getHeight d.size) idxs (roundsOf sortedIdxs) sortedIdxs []

def generateProof (d : RegularMerkleTree) (queryHashes : List Bytes) : Except RmtError Proof :=
  if d.size = 0 then .ok ⟨0,[],[]⟩
  else do
    let idxs ← d.getIndexes queryHashes
    let siblingHashes ← d.getSiblingHashes idxs
    .ok ⟨d.size,idxs,siblingHashes⟩

variable (sha : Bytes → Bytes)

def appendLoop (appendPath : List Bytes) (size height : Nat) :
    Nat → Nat → Nat → Bytes → Db → Except RmtError (Bytes × Db)
  | 0, _, _, currentHash, db => .ok (currentHash, db)
  | layers + 1, h, count, currentHash, db =>
    if size / 2 ^ h % 2 = 1 then
      match appendPath[count]? with
      | none => .error .runtimePanic
      | some appendHash => do
        let appendLoc ← getLocation db appendHash
        let nextLoc : NodeLocation := ⟨appendLoc.nodeIndex / 2,appendLoc.layerIndex + 1⟩
        let currentHash := branchHash sha (appendHash ++ currentHash)
        let db ← if nextLoc.layerIndex = height - 1 then replaceNode db currentHash nextLoc
          else .ok (saveNode db currentHash nextLoc)
        appendLoop appendPath size height layers (h + 1) (count + 1) currentHash db
    else appendLoop appendPath size height layers (h + 1) count currentHash db

def subTreeLoop (size : Nat) : Nat → Nat → Nat
  | 0, subTreeIndex => subTreeIndex
  | layers + 1, subTreeIndex =>
    if size / 2 ^ subTreeIndex % 2 = 1 then subTreeLoop size layers (subTreeIndex + 1) else subTreeIndex

/-- The first append returns before the information is saved. -/
def append (text : Normalizer) (d : RegularMerkleTree) (value : Bytes) : Except RmtError RegularMerkleTree :=
  let newLeafHash := leafHash sha value
  let db := saveNode d.db newLeafHash ⟨d.size,0⟩
  if d.size = 0 then .ok ⟨newLeafHash,d.appendPath ++ [newLeafHash],d.size + 1,db⟩
  else do
    let height := getHeight d.size
    let (root, db) ← appendLoop sha d.appendPath d.size height height 0 0 newLeafHash db
    let subTreeIndex := subTreeLoop d.size height 0
    if d.appendPath.length < subTreeIndex then .error .runtimePanic
    else
      let bottom := (d.appendPath.take subTreeIndex).foldl (fun currentHash h => branchHash sha (h ++ currentHash)) newLeafHash
      saveInfo text ⟨root,bottom :: d.appendPath.drop subTreeIndex,d.size + 1,db⟩

def saveNodes (height : Nat) : List (Nat × Bytes) → Db → Except RmtError Db
  | [], db => .ok db
  | (idx, hashedData) :: rest, db => do
    let loc ← newNodeLocation idx height
    saveNodes height rest (saveNode db hashedData loc)

/-- The computed nodes are visited in the order `visit`. The append path stays as it is. -/
def update (text : Normalizer) (visit : List (Nat × Bytes) → List (Nat × Bytes)) (d : RegularMerkleTree) (idxs : List Nat)
    (updateData : List Bytes) : Except RmtError RegularMerkleTree :=
  let height := getHeight d.size
  if idxs.any (fun idx => length idx ≠ height + 1) then .error .indexNotAtLeaf
  else do
    let siblingHashes ← d.getSiblingHashes idxs
    let calculatedTree ← calculatePathNodes sha (updateData.map (leafHash sha)) d.size idxs siblingHashes
    let db ← saveNodes height (visit calculatedTree.entries) d.db
    match calculatedTree.get rootIndex with
    | none => .error .rootMissing
    | some nextRoot => saveInfo text {d with root := nextRoot, db := db}

end RegularMerkleTree

end LiskEngine.Rmt
