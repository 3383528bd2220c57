import LiskEngine.Bytes

/-! The sparse Merkle tree: nodes, subtrees of fixed height stored under their root
hash, and the update of a trie. The hash function and the database are parameters.
Reading out of range is a runtime panic in the source. The two halves that
`updateNode` hands to goroutines are run one after the other. -/
namespace LiskEngine.Smt

inductive Node where
  | empty
  | leaf (key value : Bytes)
  | stub (nodeHash : Bytes)
  | temp
  deriving DecidableEq, Repr

inductive SmtError where
  | lengthMismatch
  | subtreeNotFound (key : Bytes)
  | emptyData
  | invalidDataPrefix (value : UInt8) (index : Nat)
  | invalidBinOffset (expected received : Nat)
  | invalidLengthIndex
  | invalidKeyValueLength
  | invalidIndexNodeKind
  | invalidNodeKind
  | invalidBinIndex
  | unsupportedHeight (subtreeHeight : Nat)
  | invalidQueryKeyLength (keyLength : Nat)
  | nodeNotSelected
  | duplicateQuery
  | inconsistentBitmap
  | noCommonPath
  | noMoreSiblingHashes
  | siblingHashNotSet
  | rootNotComputed
  | runtimePanic
  deriving DecidableEq, Repr

def index {α : Type} (values : List α) (i : Nat) : Except SmtError α :=
  match values[i]? with
  | some a => .ok a
  | none => .error .runtimePanic

def bitOf (byte : UInt8) (i : Nat) : Bool := ((byte <<< UInt8.ofNat i) &&& 0x80) == 0x80

def isBitSet (bits : Bytes) (i : Nat) : Except SmtError Bool := do
  let byte ← index bits (i / 8)
  .ok (bitOf byte (i % 8))

def Node.data : Node → Bytes
  | .empty => [2]
  | .leaf key value => 0 :: (key ++ value)
  | .stub nodeHash => 1 :: nodeHash
  | .temp => []

structure SubTree where
  struct : List Nat
  root : Bytes
  nodes : List Node
  deriving DecidableEq, Repr

structure NodeStructure where
  nodes : List Node
  struct : List Nat
  deriving DecidableEq, Repr

structure DB (σ : Type) where
  get : σ → Bytes → Option Bytes
  set : σ → Bytes → Bytes → σ
  del : σ → Bytes → σ

structure Trie where
  root : Bytes
  keyLength : Nat
  subtreeHeight : Nat
  deriving DecidableEq, Repr

def Trie.maxNumberOfNodes (t : Trie) : Nat := 2 ^ t.subtreeHeight

section
variable (sha : Bytes → Bytes)

def emptyHash : Bytes := sha []
def hashSize : Nat := (emptyHash sha).length

def leafHash (key value : Bytes) : Bytes := sha (0 :: (key ++ value))
def branchHash (left right : Bytes) : Bytes := sha (1 :: (left ++ right))

def Node.hash : Node → Bytes
  | .empty => emptyHash sha
  | .leaf key value => leafHash sha key value
  | .stub nodeHash => nodeHash
  | .temp => []

def hashLevel (height : Nat) : List Bytes → List Nat → Except SmtError (List Bytes × List Nat)
  | [], _ => .ok ([], [])
  | _ :: _, [] => .error .runtimePanic
  | [h], s :: _ => if s = height then .error .runtimePanic else .ok ([h], [s])
  | h :: h' :: hs, s :: ss =>
    if s ≠ height then do
      let (hashes, struct) ← hashLevel height (h' :: hs) ss
      .ok (h :: hashes, s :: struct)
    else do
      let (hashes, struct) ← hashLevel height hs ss.tail
      .ok (branchHash sha h h' :: hashes, (s - 1) :: struct)

/-- At height zero there is one hash; with more the height would wrap around. -/
def treeHasher : Nat → List Bytes → List Nat → Except SmtError Bytes
  | _, [h], _ => .ok h
  | 0, _, _ => .error .runtimePanic
  | height + 1, nodeHashes, struct => do
    let (nextHashes, nextStruct) ← hashLevel sha (height + 1) nodeHashes struct
    if height = 0 then index nextHashes 0 else treeHasher height nextHashes nextStruct

def maxOf (struct : List Nat) : Nat := struct.foldl max 0

def newSubtreeFromData (struct : List Nat) (nodes : List Node) : Except SmtError SubTree := do
  let calculated ← treeHasher sha (maxOf struct) (nodes.map (Node.hash sha)) struct
  .ok ⟨struct,calculated,nodes⟩

def newEmptySubTree : SubTree := ⟨[0],emptyHash sha,[.empty]⟩

def SubTree.encode (t : SubTree) : Bytes :=
  UInt8.ofNat (t.struct.length + 255) :: (t.struct.map UInt8.ofNat ++ t.nodes.flatMap Node.data)

def slice (data : Bytes) (length : Nat) : Except SmtError (Bytes × Bytes) :=
  if data.length < length then .error .runtimePanic else .ok (data.take length, data.drop length)

def parseNodes (keyLength : Nat) : Nat → Nat → Bytes → Except SmtError (List Node)
  | _, _, [] => .ok []
  | 0, _, _ :: _ => .error .runtimePanic
  | fuel + 1, idx, kind :: rest =>
    if kind = 0 then do
      let (key, rest) ← slice rest keyLength
      let (value, rest) ← slice rest (hashSize sha)
      let nodes ← parseNodes keyLength fuel (idx + 1 + keyLength + hashSize sha) rest
      .ok (.leaf key value :: nodes)
    else if kind = 1 then do
      let (nodeHash, rest) ← slice rest (hashSize sha)
      let nodes ← parseNodes keyLength fuel (idx + 1 + hashSize sha) rest
      .ok (.stub nodeHash :: nodes)
    else if kind = 2 then do
      let nodes ← parseNodes keyLength fuel (idx + 1) rest
      .ok (.empty :: nodes)
    else .error (.invalidDataPrefix kind idx)

def newSubTree (data : Bytes) (keyLength : Nat) : Except SmtError SubTree :=
  match data with
  | [] => .error .emptyData
  | length :: rest => do
    let (struct, nodeData) ← slice rest (length.toNat + 1)
    let nodes ← parseNodes sha keyLength nodeData.length 0 nodeData
    newSubtreeFromData sha (struct.map UInt8.toNat) nodes

def takeTemp (n : Node) (s : Nat) (tempHolder : List NodeStructure) :
    Except SmtError (NodeStructure × List NodeStructure) :=
  if n = .temp then
    match tempHolder.getLast? with
    | some last => .ok (last, tempHolder.dropLast)
    | none => .error .runtimePanic
  else .ok (⟨[n],[s]⟩, tempHolder)

def parentNode (left right : Node) (s s' : Nat) (tempHolder : List NodeStructure) :
    Except SmtError (Node × List NodeStructure) :=
  match left, right with
  | .empty, .empty => .ok (left, tempHolder)
  | .empty, .leaf _ _ => .ok (right, tempHolder)
  | .leaf _ _, .empty => .ok (left, tempHolder)
  | _, _ => do
    let (l, tempHolder) ← takeTemp left s tempHolder
    let (r, tempHolder) ← takeTemp right s' tempHolder
    .ok (.temp, ⟨l.nodes ++ r.nodes,l.struct ++ r.struct⟩ :: tempHolder)

def subTreeLevel (height : Nat) : List Node → List Nat → List NodeStructure →
    Except SmtError (List Node × List Nat × List NodeStructure)
  | [], _, tempHolder => .ok ([], [], tempHolder)
  | _ :: _, [], _ => .error .runtimePanic
  | [n], s :: _, tempHolder => if s = height then .error .runtimePanic else .ok ([n], [s], tempHolder)
  | n :: n' :: ns, s :: ss, tempHolder =>
    if s ≠ height then do
      let (nodes, struct, tempHolder) ← subTreeLevel height (n' :: ns) ss tempHolder
      .ok (n :: nodes, s :: struct, tempHolder)
    else do
      let s' ← index ss 0
      let (parent, tempHolder) ← parentNode n n' s s' tempHolder
      let (nodes, struct, tempHolder) ← subTreeLevel height ns ss.tail tempHolder
      .ok (parent :: nodes, (s - 1) :: struct, tempHolder)

def calculateSubTree : Nat → List Node → List Nat → List NodeStructure → Except SmtError SubTree
  | 0, nodes, _, _ => newSubtreeFromData sha [0] nodes
  | height + 1, nodes, struct, tempHolder => do
    let (nextNodes, nextStruct, tempHolder) ← subTreeLevel (height + 1) nodes struct tempHolder
    if height = 0 then
      let first ← index nextNodes 0
      if first = .temp then
        let held ← index tempHolder 0
        newSubtreeFromData sha held.struct held.nodes
      else newSubtreeFromData sha [0] nextNodes
    else calculateSubTree height nextNodes nextStruct tempHolder

end

abbrev KeyValue := Bytes × Bytes

def lengthBins : Nat → List (List KeyValue) → List Nat
  | _, [] => []
  | sum, bin :: rest => (sum + bin.length) :: lengthBins (sum + bin.length) rest

def getBinIndex (t : Trie) (key : Bytes) (height b : Nat) : Except SmtError Nat :=
  if t.subtreeHeight = 4 then
    if height % 8 = 0 then do
      let byte ← index key b
      .ok (byte.toNat >>> 4)
    else if height % 8 = 4 then do
      let byte ← index key b
      .ok (byte.toNat >>> 15)
    else .error .invalidBinIndex
  else if t.subtreeHeight = 8 then do
    let byte ← index key b
    .ok byte.toNat
  else .error (.unsupportedHeight t.subtreeHeight)

def indexKeys (t : Trie) (height : Nat) : List KeyValue → Except SmtError (List (Nat × KeyValue))
  | [] => .ok []
  | kv :: rest => do
    let binIndex ← getBinIndex t kv.1 height (height / 8)
    let indexed ← indexKeys t height rest
    .ok ((binIndex, kv) :: indexed)

def fillBins (t : Trie) (height : Nat) (keyValues : List KeyValue) : Except SmtError (List (List KeyValue)) := do
  let indexed ← indexKeys t height keyValues
  .ok ((List.range t.maxNumberOfNodes).map (fun i => (indexed.filter (fun e => e.1 = i)).map Prod.snd))

def singleUpdate (bins : List (List KeyValue)) (lengths : List Nat) (lengthBase : Nat) (currentNode : Node) :
    Except SmtError (Option Node) :=
  match lengths.findIdx? (fun length => length = lengthBase + 1) with
  | none => .error .invalidLengthIndex
  | some i => do
    let bin ← index bins i
    let (key, value) ← index bin 0
    match currentNode with
    | .empty => .ok (some (if value.length ≠ 0 then .leaf key value else .empty))
    | .leaf currentKey _ =>
      if currentKey = key then .ok (some (if value.length ≠ 0 then .leaf key value else .empty)) else .ok none
    | _ => .ok none

def settledNode (bins : List (List KeyValue)) (lengths : List Nat) (lengthBase : Nat) (currentNode : Node) :
    Except SmtError (Option Node) :=
  match lengths.getLast? with
  | none => .error .runtimePanic
  | some last =>
    if last - lengthBase = 0 then .ok (some currentNode)
    else if last - lengthBase = 1 then singleUpdate bins lengths lengthBase currentNode
    else .ok none

def splitNode (currentNode : Node) (i : Nat) : Except SmtError (Node × Node) :=
  match currentNode with
  | .empty => .ok (.empty, .empty)
  | .leaf key value => do
    let right ← isBitSet key i
    .ok (if right then (.empty, .leaf key value) else (.leaf key value, .empty))
  | _ => .error .invalidNodeKind

section
variable (sha : Bytes → Bytes) {σ : Type} (db : DB σ)

def newTrie (root : Bytes) (keyLength : Nat) : Trie :=
  ⟨if root.length = 0 then emptyHash sha else root,keyLength,8⟩

def getSubtree (t : Trie) (s : σ) (nodeHash : Bytes) : Except SmtError SubTree :=
  if nodeHash.length = 0 ∨ nodeHash = emptyHash sha then .ok (newEmptySubTree sha)
  else
    match db.get s nodeHash with
    | none => .error (.subtreeNotFound nodeHash)
    | some encodedValue => newSubTree sha encodedValue t.keyLength

def bottomSubTree (t : Trie) (s : σ) (currentNode : Node) : Except SmtError (σ × SubTree) :=
  match currentNode with
  | .stub nodeHash => do
    let subtree ← getSubtree sha db t s nodeHash
    .ok (db.del s nodeHash, subtree)
  | .empty => do
    let subtree ← getSubtree sha db t s (emptyHash sha)
    .ok (s, subtree)
  | .leaf _ _ => do
    let subtree ← newSubtreeFromData sha [0] [currentNode]
    .ok (s, subtree)
  | .temp => .error .invalidIndexNodeKind

/-- The nodes that replace one node, with the levels of the subtree left below it.
`descend` updates the subtree under a node at the bottom. -/
def updateNode (t : Trie) (descend : σ → List KeyValue → SubTree → Except SmtError (σ × SubTree)) (height : Nat) :
    Nat → σ → List (List KeyValue) → List Nat → Nat → Node → Except SmtError (σ × List Node × List Nat)
  | 0, s, bins, lengths, lengthBase, currentNode => do
    let settled ← settledNode bins lengths lengthBase currentNode
    match settled, bins with
    | some n, _ => .ok (s, [n], [t.subtreeHeight])
    | none, [keyValues] => do
      let (s, bottom) ← bottomSubTree sha db t s currentNode
      let (s, newSubtree) ← descend s keyValues bottom
      match newSubtree.nodes with
      | [n] => .ok (s, [n], [t.subtreeHeight])
      | _ => .ok (s, [.stub newSubtree.root], [t.subtreeHeight])
    | none, _ => .error .invalidKeyValueLength
  | levels + 1, s, bins, lengths, lengthBase, currentNode => do
    let structurePos := t.subtreeHeight - (levels + 1)
    let settled ← settledNode bins lengths lengthBase currentNode
    match settled with
    | some n => .ok (s, [n], [structurePos])
    | none => do
      let (leftNode, rightNode) ← splitNode currentNode (height + structurePos)
      let splitIndex := bins.length / 2
      let rightBase ← index lengths (splitIndex - 1)
      let (s, leftNodes, leftStruct) ← updateNode t descend height levels s (bins.take splitIndex)
        (lengths.take splitIndex) lengthBase leftNode
      let (s, rightNodes, rightStruct) ← updateNode t descend height levels s (bins.drop splitIndex)
        (lengths.drop splitIndex) rightBase rightNode
      .ok (s, leftNodes ++ rightNodes, leftStruct ++ rightStruct)

def updateNodes (t : Trie) (descend : σ → List KeyValue → SubTree → Except SmtError (σ × SubTree)) (height : Nat)
    (bins : List (List KeyValue)) :
    σ → Nat → List Node → List Nat → Except SmtError (σ × List Node × List Nat × Nat)
  | s, binOffset, [], _ => .ok (s, [], [], binOffset)
  | _, _, _ :: _, [] => .error .runtimePanic
  | s, binOffset, n :: ns, h :: hs =>
    let newOffset := 2 ^ (t.subtreeHeight - h)
    let target := (bins.drop binOffset).take newOffset
    if t.subtreeHeight < h ∨ bins.length < binOffset + newOffset then .error .runtimePanic
    else do
      let (s, nodes, struct) ← updateNode sha db t descend height (t.subtreeHeight - h) s target (lengthBins 0 target) 0 n
      let (s, laterNodes, laterStruct, binOffset) ← updateNodes t descend height bins s (binOffset + newOffset) ns hs
      .ok (s, nodes ++ laterNodes, struct ++ laterStruct, binOffset)

def updateSubtree (t : Trie) : Nat → Nat → σ → List KeyValue → SubTree → Except SmtError (σ × SubTree)
  | _, _, s, [], currentSubtree => .ok (s, currentSubtree)
  | 0, _, _, _ :: _, _ => .error .runtimePanic
  | fuel + 1, height, s, keyValues, currentSubtree => do
    let bins ← fillBins t height keyValues
    let (s, newNodes, newStruct, binOffset) ← updateNodes sha db t (updateSubtree t fuel (height + t.subtreeHeight))
      height bins s 0 currentSubtree.nodes currentSubtree.struct
    if binOffset ≠ t.maxNumberOfNodes then .error (.invalidBinOffset t.maxNumberOfNodes binOffset)
    else
      let newSubtree ← calculateSubTree sha (maxOf newStruct) newNodes newStruct []
      .ok (db.set s newSubtree.root newSubtree.encode, newSubtree)

def uniqueKeys : List Bytes → List KeyValue → List KeyValue
  | _, [] => []
  | seen, kv :: rest => if kv.1 ∈ seen then uniqueKeys seen rest else kv :: uniqueKeys (kv.1 :: seen) rest

/-- A key runs out of bytes after at most two subtrees for each of them. -/
def fuelFor (keyValues : List KeyValue) : Nat := 2 * maxOf (keyValues.map (fun kv => kv.1.length)) + 1

def Trie.update (t : Trie) (s : σ) (keys values : List Bytes) : Except SmtError (σ × Trie) :=
  if keys.length ≠ values.length then .error .lengthMismatch
  else if keys.length = 0 then .ok (s, t)
  else do
    let keyValues := uniqueKeys [] (keys.zip values)
    let root ← getSubtree sha db t s t.root
    let (s, newRoot) ← updateSubtree sha db t (fuelFor keyValues) 0 s keyValues root
    .ok (s, {t with root := newRoot.root})

end
end LiskEngine.Smt
