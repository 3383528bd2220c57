import LiskEngine.SparsePath
import LiskEngine.SmtSound

/-! The answer of a trie to one query. The hashes along the path of a query are
collected level by level, as the subtree is folded, and subtree by subtree; together
they are those of the subtrees above and beside the path in the tree of the map. -/
namespace LiskEngine.Smt
open LeafTree List Option QueryHashes

abbrev Marked := Node × Option QueryHashes

def QueryHashes.stack (h level : QueryHashes) : QueryHashes :=
  ⟨level.siblingHashes.reverse ++ h.siblingHashes,level.ancestorHashes.reverse ++ h.ancestorHashes,
    h.binaryBitmap ++ level.binaryBitmap⟩

theorem stackNone (h : QueryHashes) : h.stack ⟨[],[],[]⟩ = h := by
  simp [stack]

section
variable (sha : Bytes → Bytes)

def branchNode (left right : Node) : Node := .stub (branchHash sha (left.hash sha) (right.hash sha))

def mergeMarked (a b : Marked) : Marked :=
  (branchNode sha a.1 b.1,
    match a.2, b.2 with
    | some h, _ => some (h.stack (foundSibling sha ⟨b.1,0⟩ ⟨branchNode sha a.1 b.1,0⟩))
    | none, some h => some (h.stack (foundSibling sha ⟨a.1,0⟩ ⟨branchNode sha a.1 b.1,0⟩))
    | none, none => none)

end

def isMarked (e : Marked × Nat) : Bool := e.1.2.isSome

def firstMark (items : List (Marked × Nat)) : Option QueryHashes := items.findSome? (fun e => e.1.2)

structure Lined (targetID bound : Nat) (e : Marked × Nat) (n : IndexedNode) : Prop where
  node : n.node = e.1.1
  below : n.index < bound
  target : isMarked e = true ↔ n.index = targetID

variable {sha : Bytes → Bytes}

theorem linedRaise (within : bound ≤ bound') (lined : Lined targetID bound e n) :
    Lined targetID bound' e n := ⟨lined.node,lined.below.trans_le within,lined.target⟩

theorem firstMarkCons (e : Marked × Nat) (rest : List (Marked × Nat)) : firstMark (e::rest) = e.1.2.or (firstMark rest) := by
  rw [firstMark,findSome?_cons]
  cases e.1.2 <;> rfl

theorem firstMarkNone (unmarked : items.countP isMarked = 0) : firstMark items = none := by
  refine findSome?_eq_none_iff.mpr (fun e mem => ?_)
  simpa [isMarked] using countP_eq_zero.mp unmarked e mem

structure Levelled (sha : Bytes → Bytes) (height start finish targetID : Nat) (items : List (Marked × Nat)) (level : QueryLevel) :
    Prop where
  struct : level.struct = (mergeLevel (mergeMarked sha) height items).map Prod.snd
  lined : List.Forall₂ (Lined level.targetID finish) (mergeLevel (mergeMarked sha) height items) level.nodes
  once : (mergeLevel (mergeMarked sha) height items).countP isMarked ≤ items.countP isMarked
  moved : level.targetID = targetID ∨ (start ≤ level.targetID ∧ level.targetID < finish)
  unmarked : items.countP isMarked = 0 → level.targetID = targetID ∧ level.hashes = ⟨[],[],[]⟩
  mark : firstMark (mergeLevel (mergeMarked sha) height items) = (firstMark items).map (fun h => h.stack level.hashes)

structure Followed (sha : Bytes → Bytes) (targetID index : Nat) (e e' : Marked × Nat) (followed : Nat × QueryHashes) : Prop where
  merged : (mergeMarked sha e.1 e'.1).2 = (e.1.2.or e'.1.2).map (fun h => h.stack followed.2)
  target : ([e,e'].countP isMarked = 1 ∧ followed.1 = index) ∨
    ([e,e'].countP isMarked = 0 ∧ followed.1 = targetID ∧ followed.2 = ⟨[],[],[]⟩)

theorem unmarkedNone (unmarked : isMarked e = false) : e.1.2 = none := by
  simpa [isMarked] using unmarked

theorem followMarked {targetID bound e e' n n' parent} (lined : Lined targetID bound e n) (lined' : Lined targetID bound e' n')
    (once : [e,e'].countP isMarked ≤ 1) (node : parent.node = branchNode sha n.node n'.node) :
    Followed sha targetID parent.index e e' (followTarget sha targetID n n' parent) := by
  have hit : ∀ k : IndexedNode, foundSibling sha k parent = foundSibling sha ⟨k.node,0⟩ ⟨branchNode sha e.1.1 e'.1.1,0⟩ := by
    intro k
    rw [← lined.node,← lined'.node,← node]
    rfl
  unfold followTarget
  by_cases left : targetID = n.index
  · have marked := lined.target.mpr left.symm
    have other : isMarked e' = false := by
      by_contra both
      simp [countP_cons,marked,both] at once
    obtain ⟨own,hashes⟩ := isSome_iff_exists.mp marked
    rw [if_pos left,hit,lined'.node]
    exact ⟨by rw [mergeMarked,hashes]; rfl,.inl ⟨by simp [marked,other],rfl⟩⟩
  · have unmarked : isMarked e = false := by
      by_contra marked
      exact left (lined.target.mp (by simpa using marked)).symm
    rw [if_neg left]
    by_cases right : targetID = n'.index
    · have marked := lined'.target.mpr right.symm
      obtain ⟨own,hashes⟩ := isSome_iff_exists.mp marked
      rw [if_pos right,hit,lined.node]
      exact ⟨by rw [mergeMarked,unmarkedNone unmarked,hashes]; rfl,.inl ⟨by simp [marked,unmarked],rfl⟩⟩
    · have unmarked' : isMarked e' = false := by
        by_contra marked
        exact right (lined'.target.mp (by simpa using marked)).symm
      rw [if_neg right]
      exact ⟨by rw [mergeMarked,unmarkedNone unmarked,unmarkedNone unmarked']; rfl,.inr ⟨by simp [unmarked,unmarked'],rfl,rfl⟩⟩

theorem linedMove (lined : List.Forall₂ (Lined targetID bound) items nodes)
    (unmarked : items.countP isMarked = 0) (beyond : bound ≤ targetID') : List.Forall₂ (Lined targetID' bound) items nodes := by
  induction lined with
  | nil => exact .nil
  | @cons e n _ _ first _ ih =>
    rw [countP_eq_zero] at unmarked
    have absent : isMarked e = false := by simpa using unmarked e (.head _)
    have low := first.below
    refine .cons ⟨first.node,low,?_⟩ (ih (countP_eq_zero.mpr (fun e mem => unmarked e (.tail _ mem))))
    simp only [absent,Bool.false_eq_true,false_iff]
    omega

section
variable {height maxIndex i targetID : Nat} {e e' : Marked × Nat} {rest : List (Marked × Nat)} {level : QueryLevel}

theorem countPair (e e' : Marked × Nat) (rest : List (Marked × Nat)) :
    (e::e'::rest).countP isMarked = [e,e'].countP isMarked+rest.countP isMarked := by
  rw [← countP_append]
  rfl

theorem levelledFork {tid' hit} {n n' : IndexedNode} (same : e.2 = height) (first : n.node = e.1.1)
    (second : n'.node = e'.1.1) (once : (e::e'::rest).countP isMarked ≤ 1) (earlier : targetID < maxIndex+i)
    (followed : Followed sha targetID (maxIndex+i) e e' (tid',hit))
    (levelled : Levelled sha height (maxIndex+(i+2)) (maxIndex+i+(e::e'::rest).length) tid' rest level) :
    Levelled sha height (maxIndex+i) (maxIndex+i+(e::e'::rest).length) targetID (e::e'::rest)
      ⟨⟨branchNode sha n.node n'.node,maxIndex+i⟩::level.nodes,(height-1)::level.struct,level.targetID,
        ⟨hit.siblingHashes ++ level.hashes.siblingHashes,hit.ancestorHashes ++ level.hashes.ancestorHashes,
          hit.binaryBitmap ++ level.hashes.binaryBitmap⟩⟩ := by
  have split := countPair e e' rest
  rw [split] at once
  have merged : mergeLevel (mergeMarked sha) height (e::e'::rest) =
      (mergeMarked sha e.1 e'.1,height-1)::mergeLevel (mergeMarked sha) height rest := by rw [mergeLevel,if_pos same]
  have target := followed.target
  have marks : isMarked (mergeMarked sha e.1 e'.1,height-1) = true ↔ [e,e'].countP isMarked = 1 := by
    rw [isMarked,followed.merged,isSome_map]
    cases own : e.1.2 <;> cases other : e'.1.2 <;> simp [isMarked,own,other] at once ⊢
    omega
  have moved := levelled.moved
  refine ⟨?_,?_,?_,?_,?_,?_⟩
  · rw [merged,map_cons,levelled.struct]
  · rw [merged]
    refine .cons ⟨?_,?_,?_⟩ levelled.lined
    · rw [first,second]
      rfl
    · simp only [length_cons]
      omega
    · rw [marks]
      simp only
      rcases target with ⟨one,rfl⟩ | ⟨zero,rfl,_⟩
      · have stays := (levelled.unmarked (by omega)).1
        omega
      · omega
  · rw [merged,split,countP_cons]
    have below := levelled.once
    by_cases marked : isMarked (mergeMarked sha e.1 e'.1,height-1) = true
    · rw [if_pos marked,marks.mp marked]
      omega
    · rw [if_neg marked]
      omega
  · simp only [length_cons] at moved ⊢
    omega
  · intro none
    rcases target with ⟨one,_⟩ | ⟨_,rfl,rfl⟩
    · omega
    · have stays := levelled.unmarked (by omega)
      exact ⟨stays.1,by rw [stays.2]; rfl⟩
  · rw [merged,firstMarkCons,followed.merged,levelled.mark,firstMarkCons,firstMarkCons,← Option.or_assoc]
    rcases target with ⟨one,rfl⟩ | ⟨zero,rfl,rfl⟩
    · have stays := (levelled.unmarked (by omega)).2
      rw [firstMarkNone (show rest.countP isMarked = 0 by omega),stays]
      simp
    · have unmarked := firstMarkNone zero
      have absent : e.1.2.or e'.1.2 = none := by simpa [firstMark] using unmarked
      rw [absent]
      rfl

theorem levelledKeep (other : e.2 ≠ height) (first : Lined targetID maxIndex e n)
    (once : (e::e'::rest).countP isMarked ≤ 1) (earlier : targetID < maxIndex+i)
    (levelled : Levelled sha height (maxIndex+(i+1)) (maxIndex+i+(e::e'::rest).length) targetID (e'::rest) level) :
    Levelled sha height (maxIndex+i) (maxIndex+i+(e::e'::rest).length) targetID (e::e'::rest)
      {level with nodes := n::level.nodes, struct := e.2::level.struct} := by
  have merged : mergeLevel (mergeMarked sha) height (e::e'::rest) = e::mergeLevel (mergeMarked sha) height (e'::rest) := by
    rw [mergeLevel,if_neg other]
  have split : (e::e'::rest).countP isMarked = (e'::rest).countP isMarked+if isMarked e = true then 1 else 0 :=
    countP_cons
  have moved := levelled.moved
  have under := first.below
  refine ⟨?_,?_,?_,?_,?_,?_⟩
  · rw [merged,map_cons,levelled.struct]
  · rw [merged]
    refine .cons ⟨first.node,by simp only [length_cons]; omega,?_⟩ levelled.lined
    rw [first.target]
    simp only
    by_cases marked : isMarked e = true
    · rw [(levelled.unmarked (by rw [if_pos marked] at split; omega)).1]
    · have apart := mt first.target.mpr marked
      omega
  · rw [merged,split,countP_cons]
    exact Nat.add_le_add_right levelled.once _
  · simp only [length_cons] at moved ⊢
    omega
  · intro none
    exact levelled.unmarked (by omega)
  · rw [merged,firstMarkCons,levelled.mark,firstMarkCons e]
    cases own : e.1.2 with
    | none => rfl
    | some h =>
      have marked : isMarked e = true := by rw [isMarked,own]; rfl
      rw [if_pos marked] at split
      simp [(levelled.unmarked (by omega)).2,stackNone]

end

theorem queryLevelMerge {height maxIndex i targetID items nodes} (paired : Paired height items)
    (lined : List.Forall₂ (Lined targetID maxIndex) items nodes) (once : items.countP isMarked ≤ 1) (earlier : targetID < maxIndex+i) :
    ∃ level, queryLevel sha height maxIndex i targetID nodes (items.map Prod.snd) = .ok level ∧
      Levelled sha height (maxIndex+i) (maxIndex+i+items.length) targetID items level := by
  induction items using mergeLevel.induct height generalizing nodes i targetID with
  | case1 =>
    cases lined
    exact ⟨_,rfl,⟨rfl,.nil,Nat.le_refl _,.inl rfl,fun _ => ⟨rfl,rfl⟩,rfl⟩⟩
  | case2 e =>
    cases lined with
    | @cons _ n _ _ first tail =>
      cases tail
      refine ⟨⟨[n],[e.2],targetID,⟨[],[],[]⟩⟩,?_,?_⟩
      · simp only [map_cons,map_nil,queryLevel]
        rw [if_neg paired]
      · refine ⟨rfl,.cons (linedRaise (by omega) first) .nil,Nat.le_refl _,.inl rfl,fun _ => ⟨rfl,rfl⟩,?_⟩
        simp only [stackNone,Option.map_id']
        rfl
  | case3 e e' rest same ih =>
    rw [Paired,if_pos same] at paired
    cases lined with
    | @cons _ n _ _ first tail =>
    cases tail with
    | @cons _ n' _ ns second tail =>
    have split := countPair e e' rest
    have followed := @followMarked sha targetID maxIndex e e' n n' ⟨branchNode sha n.node n'.node,maxIndex+i⟩ first second
      (by omega) rfl
    cases follow : followTarget sha targetID n n' ⟨branchNode sha n.node n'.node,maxIndex+i⟩ with
    | mk tid' hit =>
    rw [follow] at followed
    have target := followed.target
    simp only at target
    have tail' : List.Forall₂ (Lined tid' maxIndex) rest ns := by
      rcases target with ⟨one,rfl⟩ | ⟨_,rfl,_⟩
      · exact linedMove tail (by omega) (by omega)
      · exact tail
    obtain ⟨level,run,levelled⟩ := ih (i := i+2) paired.2 tail' (by omega) (by omega)
    rw [show maxIndex+(i+2)+rest.length = maxIndex+i+(e::e'::rest).length by simp only [length_cons]; omega]
      at levelled
    refine ⟨_,?_,levelledFork same first.node second.node once earlier followed levelled⟩
    simp only [map_cons,queryLevel,ne_eq,same,not_true,if_false,tail_cons]
    rw [← branchNode,follow]
    simp only [run,bind,Except.bind]
  | case4 e e' rest other ih =>
    rw [Paired,if_neg other] at paired
    cases lined with
    | @cons _ n _ ns first tail =>
    obtain ⟨n',ns,rfl⟩ : ∃ n' ns', ns = n'::ns' := by
      cases tail with
      | cons _ _ => exact ⟨_,_,rfl⟩
    have fewer := countP_cons (p := isMarked) (a := e) (l := e'::rest)
    obtain ⟨level,run,levelled⟩ := ih (i := i+1) paired tail (by omega) (by omega)
    rw [show maxIndex+(i+1)+(e'::rest).length = maxIndex+i+(e::e'::rest).length by simp only [length_cons]; omega]
      at levelled
    refine ⟨_,?_,levelledKeep other first once earlier levelled⟩
    simp only [map_cons] at run ⊢
    simp only [queryLevel,ne_eq,other,not_false_iff,if_true,run,bind,Except.bind]

theorem calculateMarked {w : LeafTree Marked} {n maxIndex targetID nodes hashes} (bound : w.depth ≤ n)
    (lined : List.Forall₂ (Lined targetID maxIndex) (w.listed 0) nodes) (once : (w.listed 0).countP isMarked ≤ 1)
    (earlier : targetID < maxIndex) (mark : firstMark (w.listed 0) = some hashes) :
    ∃ all, calculateQueryHashes sha n maxIndex targetID nodes ((w.listed 0).map Prod.snd) hashes = .ok all ∧
      (w.fold (mergeMarked sha)).2 = some all := by
  induction n generalizing w maxIndex targetID nodes hashes with
  | zero =>
    cases w with
    | fork l r => simp [depth] at bound
    | tip a =>
      rw [listed,firstMarkCons] at mark
      exact ⟨hashes,rfl,by simpa [firstMark,fold] using mark⟩
  | succ n ih =>
    obtain ⟨level,run,levelled⟩ := @queryLevelMerge sha (n+1) maxIndex 0 targetID _ _ (pairedTop bound) lined once earlier
    have lined' := levelled.lined
    have once' := levelled.once
    have mark' := levelled.mark
    have struct := levelled.struct
    have moved := levelled.moved
    have count := lined.length_eq
    rw [mergeTop _ bound] at lined' once' mark' struct
    rw [Nat.add_zero,count] at lined' moved
    rw [mark] at mark'
    obtain ⟨all,later,folded⟩ := ih (collapseDepth (mergeMarked sha) bound) lined' (once'.trans once) (by omega) mark'
    refine ⟨all,?_,by rwa [collapseFold] at folded⟩
    rw [calculateQueryHashes,run]
    simp only [bind,Except.bind]
    rw [struct]
    exact later

section
variable (sha : Bytes → Bytes) (key : Bytes)

/-- The nodes of a subtree, the one a key leads to marked; and its position among them. -/
def markCut : Nat → Nat → Tree → LeafTree Marked
  | 0, _, t => (cut sha 0 t).map (fun n => (n, some ⟨[],[],[]⟩))
  | j + 1, d, .node l r =>
    if keyBit key d then fork ((cut sha j l).map (fun n => (n, none))) (markCut j (d + 1) r)
    else fork (markCut j (d + 1) l) ((cut sha j r).map (fun n => (n, none)))
  | j + 1, _, t => (cut sha (j + 1) t).map (fun n => (n, some ⟨[],[],[]⟩))

def position : Nat → Nat → Tree → Nat
  | 0, _, _ => 0
  | j + 1, d, .node l r =>
    if keyBit key d then (cut sha j l).leaves.length + position j (d + 1) r else position j (d + 1) l
  | _ + 1, _, _ => 0

end

def indexed (k : Nat) (nodes : List Node) : List IndexedNode := (nodes.zipIdx k).map (fun e => ⟨e.1,e.2⟩)

theorem indexedAppend (k : Nat) (xs ys : List Node) : indexed k (xs ++ ys) = indexed k xs ++ indexed (k+xs.length) ys := by
  rw [indexed,zipIdx_append,map_append]
  rfl

theorem unmarkedLined {targetID bound k} {items : List (Node × Nat)} (fit : k+items.length ≤ bound)
    (out : targetID < k ∨ k+items.length ≤ targetID) :
    List.Forall₂ (Lined targetID bound) (items.map (fun e => ((e.1,none),e.2))) (indexed k (items.map Prod.fst)) := by
  induction items generalizing k with
  | nil => exact .nil
  | cons e rest ih =>
    rw [length_cons] at fit out
    refine .cons ⟨rfl,?_,?_⟩ (ih (by omega) (by omega))
    · show k < bound
      omega
    · show false = true ↔ k = targetID
      simp only [Bool.false_eq_true,false_iff]
      omega

structure Marking (targetID bound k : Nat) (items : List (Marked × Nat)) (nodes : List Node) : Prop where
  lined : List.Forall₂ (Lined targetID bound) items (indexed k nodes)
  once : items.countP isMarked = 1
  mark : firstMark items = some ⟨[],[],[]⟩

theorem unmarkedCount (items : List (Node × Nat)) :
    (items.map (fun e => ((e.1,none),e.2) : Node × Nat → Marked × Nat)).countP isMarked = 0 := by
  simp [countP_eq_zero,isMarked]

theorem markingLeft {targetID bound k items} {others : List (Node × Nat)} {nodes} (marking : Marking targetID bound k items nodes)
    (fit : k+nodes.length+others.length ≤ bound) (inside : targetID < k+nodes.length) :
    Marking targetID bound k (items ++ others.map (fun e => ((e.1,none),e.2))) (nodes ++ others.map Prod.fst) where
  lined := by
    rw [indexedAppend]
    exact rel_append marking.lined (unmarkedLined fit (.inl inside))
  once := by rw [countP_append,marking.once,unmarkedCount]
  mark := by
    have first := marking.mark
    rw [firstMark] at first ⊢
    rw [findSome?_append,first]
    rfl

theorem markingRight {targetID bound k items} {others : List (Node × Nat)} {nodes}
    (marking : Marking targetID bound (k+others.length) items nodes) (fit : k+others.length ≤ bound) (inside : k+others.length ≤ targetID) :
    Marking targetID bound k (others.map (fun e => ((e.1,none),e.2)) ++ items) (others.map Prod.fst ++ nodes) where
  lined := by
    rw [indexedAppend,length_map]
    exact rel_append (unmarkedLined fit (.inr inside)) marking.lined
  once := by rw [countP_append,marking.once,unmarkedCount]
  mark := by
    have first := marking.mark
    have absent := firstMarkNone (unmarkedCount others)
    rw [firstMark] at first absent ⊢
    rw [findSome?_append,first,absent]
    rfl

theorem markingTip (n : Node) (fit : k < bound) : Marking k bound k [((n,some ⟨[],[],[]⟩),e)] [n] where
  lined := .cons ⟨rfl,fit,by simp [isMarked]⟩ .nil
  once := rfl
  mark := rfl

theorem leavesCount {α : Type} (t : LeafTree α) (d : Nat) : (t.listed d).length = t.leaves.length := by
  rw [← listedLeaves t d,length_map]

theorem cutMarked (key : Bytes) {j d e k bound t} (fit : k+(cut sha j t).leaves.length ≤ bound) :
    position sha key j d t < (cut sha j t).leaves.length ∧
    Marking (k+position sha key j d t) bound k ((markCut sha key j d t).listed e) (cut sha j t).leaves := by
  induction j generalizing d e k t with
  | zero =>
    obtain ⟨n,tip⟩ : ∃ n, cut sha 0 t = tip n := by cases t <;> exact ⟨_,rfl⟩
    rw [tip] at fit
    rw [markCut,position,tip]
    exact ⟨Nat.one_pos,markingTip n fit⟩
  | succ j ih =>
    cases t with
    | empty | leaf k v => exact ⟨Nat.one_pos,markingTip _ fit⟩
    | node l r =>
      rw [cut,leaves,length_append] at fit ⊢
      rw [markCut,position]
      split
      · obtain ⟨low,marking⟩ := ih (d := d+1) (e := e+1) (k := k+(cut sha j l).leaves.length) (t := r) (by omega)
        refine ⟨by omega,?_⟩
        rw [listed,listedMap,← listedLeaves (cut sha j l) (e+1),← Nat.add_assoc,length_map]
        rw [← leavesCount (cut sha j l) (e+1)] at marking fit
        exact markingRight marking (by omega) (by omega)
      · obtain ⟨low,marking⟩ := ih (d := d+1) (e := e+1) (k := k) (t := l) (by omega)
        refine ⟨by omega,?_⟩
        rw [listed,listedMap,← listedLeaves (cut sha j r) (e+1)]
        exact markingLeft marking (by rw [leavesCount]; omega) (by omega)

theorem markCutStruct (key : Bytes) (j d e : Nat) (t : Tree) :
    ((markCut sha key j d t).listed e).map Prod.snd = ((cut sha j t).listed e).map Prod.snd := by
  induction j generalizing d e t with
  | zero => cases t <;> rfl
  | succ j ih =>
    cases t with
    | empty | leaf k v => rfl
    | node l r =>
      rw [markCut,cut]
      split <;> simp [listed,ih,listedMap]

section
variable (sha : Bytes → Bytes)

def pathHashes (t : Tree) (path : List Bool) : QueryHashes :=
  ⟨((t.beside path).filter (· ≠ .empty)).map (treeRoot sha),(t.above path).map (treeRoot sha),
    ((t.beside path).map (fun x => decide (x ≠ .empty))).reverse⟩

end

theorem pathHashesAppend (hit : t.subtreeAt path = some x) (more : List Bool) :
    pathHashes sha t (path ++ more) = (pathHashes sha x more).stack
      ⟨(pathHashes sha t path).siblingHashes.reverse,(pathHashes sha t path).ancestorHashes.reverse,
        (pathHashes sha t path).binaryBitmap⟩ := by
  simp [pathHashes,stack,SparseTree.besideAppend hit,SparseTree.aboveAppend hit]

theorem unmarkedFold (j : Nat) (t : Tree) : ∃ n,
    ((cut sha j t).map (fun n => ((n,none) : Marked))).fold (mergeMarked sha) = (n,none) ∧ n.hash sha = treeRoot sha t ∧
    (n = .empty ↔ t = .empty) := by
  induction j, t using cut.induct with
  | case1 j => exact ⟨.empty,by rw [cutEmpty]; rfl,rfl,by simp⟩
  | case2 j key value => exact ⟨.leaf key value,by rw [cutLeaf]; rfl,rfl,by simp⟩
  | case3 l r => exact ⟨.stub _,rfl,rfl,by simp⟩
  | case4 j l r ihl ihr =>
    obtain ⟨a,left,hashA,_⟩ := ihl
    obtain ⟨b,right,hashB,_⟩ := ihr
    refine ⟨branchNode sha a b,?_,?_,by simp [branchNode]⟩
    · rw [cut,LeafTree.map,fold,left,right]
      rfl
    · rw [branchNode,hashA,hashB]
      rfl

theorem pathHashesNode (hash : n.hash sha = treeRoot sha (if b then l else r))
    (absent : n = .empty ↔ (if b then l else r) = .empty) (parentHash : parent.hash sha = treeRoot sha (.node l r)) :
    pathHashes sha (.node l r) (b::path) = (pathHashes sha (if b then r else l) path).stack (foundSibling sha ⟨n,0⟩ ⟨parent,0⟩) := by
  rw [pathHashes,SparseTree.besideNode,SparseTree.aboveNode]
  by_cases isEmpty : (if b then l else r) = .empty
  · simp [foundSibling,absent.mpr isEmpty,isEmpty,pathHashes,stack,parentHash]
  · have real : ¬n = .empty := fun same => isEmpty (absent.mp same)
    simp [foundSibling,real,isEmpty,pathHashes,stack,parentHash,hash]

theorem branchNodeHash (left : a.hash sha = treeRoot sha l) (right : b.hash sha = treeRoot sha r) :
    (branchNode sha a b).hash sha = treeRoot sha (.node l r) := by
  rw [branchNode,left,right]
  rfl

theorem markedFold (key : Bytes) (j d : Nat) (t : Tree) : ∃ n, (markCut sha key j d t).fold (mergeMarked sha) =
    (n,some (pathHashes sha t (SparseTree.way keyBit key j d t))) ∧ n.hash sha = treeRoot sha t := by
  induction j generalizing d t with
  | zero => cases t <;> exact ⟨_,rfl,rfl⟩
  | succ j ih =>
    cases t with
    | empty | leaf k v => exact ⟨_,rfl,rfl⟩
    | node l r =>
      rw [markCut,SparseTree.way]
      cases bit : keyBit key d with
      | true =>
        obtain ⟨a,left,hashA,absent⟩ := @unmarkedFold sha j l
        obtain ⟨b,right,hashB⟩ := ih (d+1) r
        have parentHash := branchNodeHash hashA hashB
        refine ⟨branchNode sha a b,?_,parentHash⟩
        rw [if_pos rfl,fold,left,right,pathHashesNode (b := true) hashA absent parentHash]
        rfl
      | false =>
        obtain ⟨b,right,hashB,absent⟩ := @unmarkedFold sha j r
        obtain ⟨a,left,hashA⟩ := ih (d+1) l
        have parentHash := branchNodeHash hashA hashB
        refine ⟨branchNode sha a b,?_,parentHash⟩
        rw [if_neg (by decide),fold,left,right,pathHashesNode (b := false) hashB absent parentHash]
        rfl

theorem storedHashes (key : Bytes) (d : Nat) (t : Tree) :
    calculateQueryHashes sha (maxOf (stored sha 8 t).struct) (stored sha 8 t).nodes.length (position sha key 8 d t)
      ((stored sha 8 t).nodes.zipIdx.map (fun e => ⟨e.1,e.2⟩)) (stored sha 8 t).struct ⟨[],[],[]⟩ =
    .ok (pathHashes sha t (SparseTree.way keyBit key 8 d t)) := by
  have nodes : (stored sha 8 t).nodes = (cut sha 8 t).leaves := listedLeaves _ _
  have struct : (stored sha 8 t).struct = ((markCut sha key 8 d t).listed 0).map Prod.snd := (markCutStruct key 8 d 0 t).symm
  obtain ⟨inside,marking⟩ := @cutMarked sha key 8 d 0 0 (cut sha 8 t).leaves.length t (by omega)
  rw [Nat.zero_add] at marking
  obtain ⟨n,folded,_⟩ := @markedFold sha key 8 d t
  obtain ⟨all,run,same⟩ := @calculateMarked sha (markCut sha key 8 d t) _ _ _ _ _ (Nat.le_refl _) marking.lined
    marking.once.le inside marking.mark
  rw [folded] at same
  rw [struct,maxOfListed,nodes]
  cases same
  exact run

def topNode (sha : Bytes → Bytes) (t : Tree) : Node := shown (cut sha 0 t)

theorem selectSkip (levels : e+j = 8) (beyond : offset+2^j ≤ binIndex)
    (later : selectNode 8 binIndex (i+1) (offset+2^j) (rest.map Prod.fst) (rest.map Prod.snd) = .ok (some r)) :
    selectNode 8 binIndex i offset (((n,e)::rest).map Prod.fst) (((n,e)::rest).map Prod.snd) = .ok (some r) := by
  have width : 8-e = j := by omega
  simp only [map_cons,selectNode,width]
  rw [if_neg (show ¬8 < e by omega),if_neg (by omega),later]
  rfl

theorem selectLater (levels : e+j = 8) (beyond : offset+2^j ≤ binIndex) (later : selectNode 8 binIndex
      (i+(cut sha j t).leaves.length) (offset+2^j) (rest.map Prod.fst) (rest.map Prod.snd) = .ok (some r)) :
    selectNode 8 binIndex i offset (((cut sha j t).listed e ++ rest).map Prod.fst) (((cut sha j t).listed e ++ rest).map Prod.snd) =
      .ok (some r) := by
  induction j, t using cut.induct generalizing e i offset rest with
  | case1 j => rw [cutEmpty] at later ⊢; exact selectSkip levels beyond later
  | case2 j key value => rw [cutLeaf] at later ⊢; exact selectSkip levels beyond later
  | case3 a b => exact selectSkip levels beyond later
  | case4 j a b iha ihb =>
    rw [Nat.pow_succ,Nat.mul_two] at beyond later
    rw [cut,leaves,length_append,← Nat.add_assoc,← Nat.add_assoc] at later
    rw [cut,listed,append_assoc]
    have width := Nat.two_pow_pos j
    exact iha (by omega) (by omega) (ihb (by omega) (by omega) later)

theorem selectHere (levels : e+j = 8) (low : offset ≤ binIndex) (high : binIndex < offset+2^j) (n : Node) (rest : List (Node × Nat)) :
    selectNode 8 binIndex i offset (((n,e)::rest).map Prod.fst) (((n,e)::rest).map Prod.snd) = .ok (some (n,i,e)) := by
  have width : 8-e = j := by omega
  simp only [map_cons,selectNode,width]
  rw [if_neg (show ¬8 < e by omega),if_pos ⟨low,high⟩]

theorem selectCut (key : Bytes) {binIndex j d e i offset t} (levels : e+j = 8) (bin : binIndex = offset+binValue j d key)
    (rest : List (Node × Nat)) :
    selectNode 8 binIndex i offset (((cut sha j t).listed e ++ rest).map Prod.fst) (((cut sha j t).listed e ++ rest).map Prod.snd) =
      .ok (some (topNode sha (SparseTree.reach keyBit key j d t),i+position sha key j d t,
        e+(SparseTree.way keyBit key j d t).length)) := by
  have small := binValueLt j d key
  induction j generalizing d e i offset t rest with
  | zero =>
    have here := fun n => selectHere (i := i) levels (show offset ≤ binIndex by omega) (by omega) n rest
    cases t <;> exact here _
  | succ j ih =>
    cases t with
    | empty | leaf k v => exact selectHere levels (by omega) (by omega) _ rest
    | node l r =>
      have below := binValueLt j (d+1) key
      rw [cut,listed,append_assoc,position,SparseTree.way,SparseTree.reach,length_cons]
      rw [binValue] at bin
      cases bit : keyBit key d with
      | true =>
        rw [bit,if_pos rfl] at bin
        have hit := @ih (d+1) (e+1) (i+(cut sha j l).leaves.length) (offset+2^j) r (by omega) (by omega) rest below
        rw [if_pos rfl,if_pos rfl,selectLater (by omega) (by omega) hit,Nat.add_assoc i,Nat.add_assoc e,Nat.add_comm 1]
      | false =>
        rw [bit,if_neg (by decide)] at bin
        have hit := @ih (d+1) (e+1) i offset l (by omega) (by omega) ((cut sha j r).listed (e+1) ++ rest) below
        rw [if_neg (by decide),if_neg (by decide),hit,Nat.add_assoc e,Nat.add_comm 1]

theorem heldReach {read key j d t} (held : Held sha 8 read j t) : Held sha 8 read 0 (SparseTree.reach keyBit key j d t) := by
  induction j generalizing d t with
  | zero => exact held
  | succ j ih =>
    cases t with
    | empty | leaf k v => trivial
    | node l r =>
      rw [SparseTree.reach]
      split
      · exact ih held.2
      · exact ih held.1

section
variable (sha : Bytes → Bytes)

def answerOf (key : Bytes) (hashes : QueryHashes) : Tree → QueryProof
  | .leaf k v => newQueryProof sha k v hashes.binaryBitmap (hashes.ancestorHashes ++ [leafHash sha k v]) hashes.siblingHashes
  | _ => newQueryProof sha key [] hashes.binaryBitmap hashes.ancestorHashes hashes.siblingHashes

def answer (key : Bytes) (n d : Nat) (t : Tree) : QueryProof :=
  answerOf sha key (pathHashes sha t (SparseTree.way keyBit key n d t)) (SparseTree.reach keyBit key n d t)

end

theorem answerTip (tip : ∀ l r, SparseTree.reach keyBit key n d t ≠ .node l r) : answer sha key (n+m) d t = answer sha key n d t := by
  obtain ⟨path,place⟩ := @SparseTree.wayAdd _ _ keyBit key n m d t
  have ends := @SparseTree.wayTip _ _ keyBit key m (d+n) _ tip
  rw [answer,path,place,ends.1,ends.2,append_nil]
  rfl

theorem answerLower (key : Bytes) (n m d : Nat) (t : Tree) : answer sha key (n+m) d t =
      (let lower := answer sha key m (d+n) (SparseTree.reach keyBit key n d t)
       let hashes := pathHashes sha t (SparseTree.way keyBit key n d t)
       newQueryProof sha lower.key lower.value (lower.binaryBitmap ++ hashes.binaryBitmap)
         (hashes.ancestorHashes ++ lower.ancestorHashes) (hashes.siblingHashes ++ lower.siblingHashes)) := by
  obtain ⟨path,place⟩ := @SparseTree.wayAdd _ _ keyBit key n m d t
  rw [answer,path,place,pathHashesAppend (SparseTree.wayReach key n d t)]
  simp only [answer]
  cases SparseTree.reach keyBit key m (d+n) (SparseTree.reach keyBit key n d t) <;>
    simp [answerOf,newQueryProof,stack]

theorem binIndexValue (eight : trie.subtreeHeight = 8) (inside : b < key.length) :
    getBinIndex trie key (8*b) (8*b/8) = .ok (binValue 8 (8*b) key) := by
  have hit := getElem?_eq_getElem inside
  rw [Nat.mul_div_cancel_left b (by decide),getBinIndex,if_neg (by omega),if_pos eight,indexOk hit,binValueByte hit]
  rfl

theorem selectStored (key : Bytes) (d : Nat) (t : Tree) :
    selectNode 8 (binValue 8 d key) 0 0 (stored sha 8 t).nodes (stored sha 8 t).struct =
      .ok (some (topNode sha (SparseTree.reach keyBit key 8 d t),position sha key 8 d t,
        (SparseTree.way keyBit key 8 d t).length)) := by
  have sel := @selectCut sha key (binValue 8 d key) 8 d 0 0 0 t rfl (Nat.zero_add _).symm []
  rw [append_nil,Nat.zero_add,Nat.zero_add] at sel
  exact sel

theorem generateAnswer {len S} {σ : Type} {store : Store σ} (hashing : Hashing sha S) {trie}
    (length : trie.keyLength = len) (eight : trie.subtreeHeight = 8) {key} (sizedKey : key.length = len)
    {s fuel m b t} (whole : b+(m+1) = len) (enough : m < fuel) (known : S t) (sized : SizedTree sha len t)
    (held : Held sha 8 (store.get s) 8 t) (deep : t.depth ≤ 8*(m+1)) :
    generateQueryProof sha store.toDB trie s key fuel (8*b) (stored sha 8 t) = .ok (answer sha key (8*(m+1)) (8*b) t) := by
  induction fuel generalizing m b t with
  | zero => omega
  | succ fuel ih =>
    have hit := SparseTree.subtreeAtMember (@SparseTree.wayReach _ _ keyBit key 8 (8*b) t)
    have sized' : SizedTree sha len (SparseTree.reach keyBit key 8 (8*b) t) :=
      fun e mem => sized e (SparseTree.subtreeEntries hit e mem)
    rw [generateQueryProof,if_neg (by rw [sizedKey,length]; exact not_not_intro rfl),binIndexValue eight (by omega),eight]
    simp only [bind,Except.bind]
    rw [selectStored]
    simp only
    rw [storedHashes,show 8*(m+1) = 8+8*m by omega]
    cases place : SparseTree.reach keyBit key 8 (8*b) t with
    | empty =>
      rw [answerTip (by rw [place]; simp),answer,place]
      rfl
    | leaf k v =>
      rw [place] at sized'
      have sizedLeaf := (sized' (k,v) (mem_singleton.mpr rfl)).1
      have value : (Node.leaf k v).data.drop (1+trie.keyLength) = v := by
        rw [length,← sizedLeaf,Nat.add_comm 1,Node.data,drop_succ_cons,drop_left]
      rw [answerTip (by rw [place]; simp),answer,place]
      simp only [topNode,shown,cut,value]
      rfl
    | node l r =>
      have lower := @SparseTree.reachDepth _ _ keyBit key 8 (8*b) t
      have below := @heldReach sha (store.get s) key 8 (8*b) t held
      have steps := SparseTree.wayFull place
      rw [place] at hit sized' lower below
      have isDeep : 0 < (SparseTree.node l r).depth := Nat.succ_pos _
      obtain ⟨m,rfl⟩ : ∃ m', m = m'+1 := ⟨m - 1,by omega⟩
      have next := getSubtreeHeld hashing (Nat.le_refl 8) length (hashing.down _ _ known hit) sized' (s := s) (fun _ => below.1)
      have later := ih (m := m) (b := b+1) (by omega) (by omega) (hashing.down _ _ known hit) sized' below.2 (by omega)
      rw [answerLower,place]
      simp only [topNode,shown,cut,Node.hash,next,steps]
      rw [show 8*b+8 = 8*(b+1) by omega,later]

end LiskEngine.Smt
