import Mathlib.Data.List.Sort
import LiskEngine.Smt

/-! Proofs of the sparse Merkle tree: the queries a trie answers, the sibling hashes
of a proof, and its verification. Queries are ordered by height, the highest first,
and by key. -/
namespace LiskEngine.Smt

def toBools (val : Bytes) : List Bool := val.flatMap (fun byte => (List.range 8).map (bitOf byte))

def packByte (bits : List Bool) : UInt8 :=
  bits.zipIdx.foldl (fun res e => if e.1 then res ||| (0x80 >>> UInt8.ofNat e.2) else res) 0

def fromBools (input : List Bool) : Bytes :=
  let target := List.replicate ((8 - input.length % 8) % 8) false ++ input
  (List.range (target.length / 8)).map (fun k => packByte ((target.drop (8 * k)).take 8))

def stripPrefixFalse (val : List Bool) : List Bool := val.dropWhile (fun v => !v)

def commonPrefix : List Bool → List Bool → List Bool
  | a :: as, b :: bs => if a = b then a :: commonPrefix as bs else []
  | _, _ => []

structure Query where
  key : Bytes
  value : Bytes
  bitmap : Bytes
  deriving DecidableEq, Repr

structure Proof where
  siblingHashes : List Bytes
  queries : List Query
  deriving DecidableEq, Repr

structure QueryProof where
  key : Bytes
  value : Bytes
  binaryBitmap : List Bool
  siblingHashes : List Bytes
  ancestorHashes : List Bytes
  hash : Bytes
  deriving DecidableEq, Repr

namespace QueryProof

def height (p : QueryProof) : Nat := p.binaryBitmap.length

def binaryKey (p : QueryProof) : List Bool := toBools p.key

def binaryPath (p : QueryProof) : Except SmtError (List Bool) :=
  if p.binaryKey.length < p.height then .error .runtimePanic else .ok (p.binaryKey.take p.height)

def isSiblingOf (p query : QueryProof) : Except SmtError Bool :=
  if p.height ≠ query.height then .ok false
  else if p.binaryKey.length < p.height - 1 ∨ query.binaryKey.length < query.height - 1 then .error .runtimePanic
  else if p.binaryKey.take (p.height - 1) ≠ query.binaryKey.take (query.height - 1) then .ok false
  else do
    let own ← index p.binaryKey (p.height - 1)
    let other ← index query.binaryKey (p.height - 1)
    .ok (own ≠ other)

def before (p query : QueryProof) : Prop := query.height < p.height ∨ (query.height = p.height ∧ p.key ≤ query.key)

instance (p query : QueryProof) : Decidable (p.before query) := by
  unfold before
  infer_instance

end QueryProof

def sortQueries (queries : List QueryProof) : List QueryProof := queries.insertionSort QueryProof.before

/-- The low bound is one more than in the source, which starts it at -1. -/
def binarySearchLoop {α : Type} (less : α → Bool) (list : List α) : Nat → Nat → Nat → Except SmtError Nat
  | 0, low, high => if low < high then .error .runtimePanic else .ok high
  | fuel + 1, low, high =>
    if low < high then do
      let mid := low + (high - low + 1) / 2 - 1
      let value ← index list mid
      if less value then binarySearchLoop less list fuel low mid else binarySearchLoop less list fuel (mid + 1) high
    else .ok high

def binarySearch {α : Type} (list : List α) (less : α → Bool) : Except SmtError Nat :=
  binarySearchLoop less list list.length 0 list.length

def insertAndFilterQueries (query : QueryProof) (queries : List QueryProof) : Except SmtError (List QueryProof) :=
  if queries.length = 0 then .ok [query]
  else do
    let i ← binarySearch queries (fun val =>
      (query.height = val.height ∧ query.key < val.key) ∨ val.height < query.height)
    if i = queries.length then .ok (queries ++ [query])
    else do
      let original ← index queries i
      let path ← query.binaryPath
      let originalPath ← original.binaryPath
      if path ≠ originalPath then .ok (queries.take i ++ query :: queries.drop i) else .ok queries

section
variable (sha : Bytes → Bytes)

def newQueryProof (key value : Bytes) (binaryBitmap : List Bool) (ancestorHashes siblingHashes : List Bytes) : QueryProof :=
  ⟨key,value,binaryBitmap,siblingHashes,ancestorHashes,if value.length ≠ 0 then leafHash sha key value else emptyHash sha⟩

def mergeSibling (query sibling : QueryProof) : Except SmtError Bytes := do
  let queryBit ← index query.binaryBitmap 0
  if (sibling.hash = emptyHash sha) = (queryBit = true) then .error .inconsistentBitmap
  else do
    let siblingBit ← index sibling.binaryBitmap 0
    if (query.hash = emptyHash sha) = (siblingBit = true) then .error .inconsistentBitmap
    else if fromBools query.binaryBitmap.tail ≠ fromBools sibling.binaryBitmap.tail then .error .noCommonPath
    else .ok sibling.hash

def takeSibling (siblingHashes : List Bytes) (query : QueryProof) : Except SmtError (Bytes × List Bytes) := do
  let queryBit ← index query.binaryBitmap 0
  if queryBit then
    match siblingHashes with
    | [] => .error .noMoreSiblingHashes
    | siblingHash :: rest => .ok (siblingHash, rest)
  else .ok (emptyHash sha, siblingHashes)

def findSibling (siblingHashes : List Bytes) (query : QueryProof) (queries : List QueryProof) :
    Except SmtError (Bytes × List Bytes × List QueryProof) :=
  match queries with
  | [] => do
    let (siblingHash, siblingHashes) ← takeSibling sha siblingHashes query
    .ok (siblingHash, siblingHashes, [])
  | sibling :: rest => do
    let merged ← query.isSiblingOf sibling
    if merged then do
      let siblingHash ← mergeSibling sha query sibling
      .ok (siblingHash, siblingHashes, rest)
    else do
      let (siblingHash, siblingHashes) ← takeSibling sha siblingHashes query
      .ok (siblingHash, siblingHashes, sibling :: rest)

def branchData (right : Bool) (hash siblingHash : Bytes) : Bytes :=
  if right then 1 :: (siblingHash ++ hash) else 1 :: (hash ++ siblingHash)

def calculateStep (siblingHashes : List Bytes) (query : QueryProof) (queries : List QueryProof) :
    Except SmtError (Bytes × List Bytes × List QueryProof) := do
  let (siblingHash, siblingHashes, queries) ← findSibling sha siblingHashes query queries
  if siblingHash.length = 0 then .error .siblingHashNotSet
  else do
    let dir ← index query.binaryKey (query.height - 1)
    let data := branchData dir query.hash siblingHash
    let queries ← insertAndFilterQueries {query with hash := sha data, binaryBitmap := query.binaryBitmap.tail} queries
    .ok (data, siblingHashes, queries)

def calculateRootLoop : Nat → List Bytes → List QueryProof → Except SmtError Bytes
  | _, _, [] => .error .rootNotComputed
  | 0, _, _ :: _ => .error .runtimePanic
  | fuel + 1, siblingHashes, query :: queries =>
    if query.height = 0 then .ok query.hash
    else do
      let (_, siblingHashes, queries) ← calculateStep sha siblingHashes query queries
      calculateRootLoop fuel siblingHashes queries

def levels (queries : List QueryProof) : Nat := (queries.map (fun query => query.height + 1)).sum

def calculateRoot (siblingHashes : List Bytes) (queries : List QueryProof) : Except SmtError Bytes :=
  calculateRootLoop sha (levels queries) siblingHashes (sortQueries queries)

def checkQueries (keyLength : Nat) : List Query → List (Bytes × Query) → Except SmtError Bool
  | _, [] => .ok true
  | seen, (key, query) :: rest =>
    if key.length ≠ keyLength then .ok false
    else if (seen.find? (fun q => q.key = query.key)).any (fun q => q.bitmap ≠ query.bitmap ∨ q.value ≠ query.value) then
      .error .duplicateQuery
    else if query.bitmap.head? = some 0 then .ok false
    else if key = query.key then checkQueries keyLength (query :: seen) rest
    else if (commonPrefix (toBools key) (toBools query.key)).length < (stripPrefixFalse (toBools query.bitmap)).length then
      .ok false
    else checkQueries keyLength (query :: seen) rest

def queryProofOf (query : Query) : QueryProof :=
  newQueryProof sha query.key query.value (stripPrefixFalse (toBools query.bitmap)) [] []

def filterProofs : List Bytes → List Query → Except SmtError (List QueryProof)
  | _, [] => .ok []
  | seen, query :: rest => do
    let path ← (queryProofOf sha query).binaryPath
    if fromBools path ∈ seen then filterProofs seen rest
    else do
      let proofs ← filterProofs (fromBools path :: seen) rest
      .ok (queryProofOf sha query :: proofs)

def verify (queryKeys : List Bytes) (proof : Proof) (root : Bytes) (keyLength : Nat) : Except SmtError Bool :=
  if queryKeys.length ≠ proof.queries.length then .ok false
  else do
    let valid ← checkQueries keyLength [] (queryKeys.zip proof.queries)
    if valid then do
      let filteredProofs ← filterProofs sha [] proof.queries
      let calculatedRoot ← calculateRoot sha proof.siblingHashes filteredProofs
      .ok (root = calculatedRoot)
    else .ok false

end

structure IndexedNode where
  node : Node
  index : Nat
  deriving DecidableEq, Repr

structure QueryHashes where
  siblingHashes : List Bytes
  ancestorHashes : List Bytes
  binaryBitmap : List Bool
  deriving DecidableEq, Repr

structure QueryLevel where
  nodes : List IndexedNode
  struct : List Nat
  targetID : Nat
  hashes : QueryHashes
  deriving DecidableEq, Repr

section
variable (sha : Bytes → Bytes)

def foundSibling (sibling parent : IndexedNode) : QueryHashes :=
  if sibling.node = .empty then ⟨[],[parent.node.hash sha],[false]⟩
  else ⟨[sibling.node.hash sha],[parent.node.hash sha],[true]⟩

def followTarget (targetID : Nat) (left right parent : IndexedNode) : Nat × QueryHashes :=
  if targetID = left.index then (parent.index, foundSibling sha right parent)
  else if targetID = right.index then (parent.index, foundSibling sha left parent)
  else (targetID, ⟨[],[],[]⟩)

def queryLevel (height maxIndex : Nat) : Nat → Nat → List IndexedNode → List Nat → Except SmtError QueryLevel
  | _, targetID, [], _ => .ok ⟨[],[],targetID,⟨[],[],[]⟩⟩
  | _, _, _ :: _, [] => .error .runtimePanic
  | _, targetID, [n], s :: _ => if s = height then .error .runtimePanic else .ok ⟨[n],[s],targetID,⟨[],[],[]⟩⟩
  | i, targetID, n :: n' :: ns, s :: ss =>
    if s ≠ height then do
      let level ← queryLevel height maxIndex (i + 1) targetID (n' :: ns) ss
      .ok {level with nodes := n :: level.nodes, struct := s :: level.struct}
    else do
      let parent : IndexedNode := ⟨.stub (branchHash sha (n.node.hash sha) (n'.node.hash sha)),maxIndex + i⟩
      let (targetID, found) := followTarget sha targetID n n' parent
      let level ← queryLevel height maxIndex (i + 2) targetID ns ss.tail
      .ok ⟨parent :: level.nodes,(s - 1) :: level.struct,level.targetID,
        ⟨found.siblingHashes ++ level.hashes.siblingHashes,found.ancestorHashes ++ level.hashes.ancestorHashes,
          found.binaryBitmap ++ level.hashes.binaryBitmap⟩⟩

/-- A level ends at the position after its last node. -/
def calculateQueryHashes : Nat → Nat → Nat → List IndexedNode → List Nat → QueryHashes → Except SmtError QueryHashes
  | 0, _, _, _, _, hashes => .ok hashes
  | height + 1, maxIndex, targetID, nodes, struct, hashes => do
    let level ← queryLevel sha (height + 1) maxIndex 0 targetID nodes struct
    calculateQueryHashes height (maxIndex + nodes.length) level.targetID level.nodes level.struct
      ⟨level.hashes.siblingHashes.reverse ++ hashes.siblingHashes,level.hashes.ancestorHashes.reverse ++ hashes.ancestorHashes,
        hashes.binaryBitmap ++ level.hashes.binaryBitmap⟩

end

/-- A height above that of the subtree wraps around to a shift that leaves nothing. -/
def selectNode (subtreeHeight binIndex : Nat) : Nat → Nat → List Node → List Nat → Except SmtError (Option (Node × Nat × Nat))
  | _, _, [], _ => .ok none
  | _, _, _ :: _, [] => .error .runtimePanic
  | i, binOffset, n :: ns, queryHeight :: hs =>
    let newOffset := if subtreeHeight < queryHeight then 0 else 2 ^ (subtreeHeight - queryHeight)
    if binOffset ≤ binIndex ∧ binIndex < binOffset + newOffset then .ok (some (n, i, queryHeight))
    else do
      let later ← selectNode subtreeHeight binIndex (i + 1) (binOffset + newOffset) ns hs
      .ok (some (later.getD (n, i, queryHeight)))

section
variable (sha : Bytes → Bytes) {σ : Type} (db : DB σ)

def generateQueryProof (t : Trie) (s : σ) (queryKey : Bytes) : Nat → Nat → SubTree → Except SmtError QueryProof
  | 0, _, _ => .error .runtimePanic
  | fuel + 1, height, currentSubtree =>
    if queryKey.length ≠ t.keyLength then .error (.invalidQueryKeyLength t.keyLength)
    else do
      let binIndex ← getBinIndex t queryKey height (height / 8)
      let selected ← selectNode t.subtreeHeight binIndex 0 0 currentSubtree.nodes currentSubtree.struct
      match selected with
      | none => .error .nodeNotSelected
      | some (currentNode, targetID, queryHeight) => do
        let hashes ← calculateQueryHashes sha (maxOf currentSubtree.struct) currentSubtree.nodes.length targetID
          (currentSubtree.nodes.zipIdx.map (fun e => ⟨e.1,e.2⟩)) currentSubtree.struct ⟨[],[],[]⟩
        match currentNode with
        | .empty => .ok (newQueryProof sha queryKey [] hashes.binaryBitmap hashes.ancestorHashes hashes.siblingHashes)
        | .leaf key value =>
          .ok (newQueryProof sha key ((Node.leaf key value).data.drop (1 + t.keyLength)) hashes.binaryBitmap
            (hashes.ancestorHashes ++ [leafHash sha key value]) hashes.siblingHashes)
        | _ => do
          let lowerSubtree ← getSubtree sha db t s (currentNode.hash sha)
          let lower ← generateQueryProof t s queryKey fuel (height + queryHeight) lowerSubtree
          .ok (newQueryProof sha lower.key lower.value (lower.binaryBitmap ++ hashes.binaryBitmap)
            (hashes.ancestorHashes ++ lower.ancestorHashes) (hashes.siblingHashes ++ lower.siblingHashes))

end

def collectSibling (ancestorHashes siblingHashes : List Bytes) (query : QueryProof) : Except SmtError (QueryProof × List Bytes) := do
  let bit ← index query.binaryBitmap 0
  if bit then
    match query.siblingHashes.getLast? with
    | none => .error .runtimePanic
    | some nodeHash =>
      .ok ({query with siblingHashes := query.siblingHashes.dropLast},
        if nodeHash ∈ siblingHashes ∨ nodeHash ∈ ancestorHashes then siblingHashes else siblingHashes ++ [nodeHash])
  else .ok (query, siblingHashes)

def calculateSiblingHashesLoop (ancestorHashes : List Bytes) : Nat → List Bytes → List QueryProof → Except SmtError (List Bytes)
  | _, siblingHashes, [] => .ok siblingHashes
  | 0, _, _ :: _ => .error .runtimePanic
  | fuel + 1, siblingHashes, query :: queryProofs =>
    if query.height = 0 then calculateSiblingHashesLoop ancestorHashes fuel siblingHashes queryProofs
    else do
      let (query, siblingHashes) ← collectSibling ancestorHashes siblingHashes query
      let queryProofs ← insertAndFilterQueries {query with binaryBitmap := query.binaryBitmap.tail} queryProofs
      calculateSiblingHashesLoop ancestorHashes fuel siblingHashes queryProofs

def calculateSiblingHashes (queryProofs : List QueryProof) (ancestorHashes : List Bytes) : Except SmtError (List Bytes) :=
  calculateSiblingHashesLoop ancestorHashes (levels queryProofs) [] queryProofs

def QueryProof.query (p : QueryProof) : Query := ⟨p.key,p.value,fromBools p.binaryBitmap⟩

/-- A key runs out of bytes after at most two subtrees for each of them. -/
def Trie.prove (sha : Bytes → Bytes) {σ : Type} (db : DB σ) (t : Trie) (s : σ) (queryKeys : List Bytes) : Except SmtError Proof :=
  if queryKeys.length = 0 then .ok ⟨[],[]⟩
  else do
    let root ← getSubtree sha db t s t.root
    let queryProofs ← queryKeys.mapM (fun key => generateQueryProof sha db t s key (2 * t.keyLength + 1) 0 root)
    let ancestorHashes := queryProofs.flatMap (·.ancestorHashes)
    let siblingHashes ← calculateSiblingHashes (sortQueries queryProofs) ancestorHashes
    .ok ⟨siblingHashes,queryProofs.map QueryProof.query⟩

end LiskEngine.Smt
