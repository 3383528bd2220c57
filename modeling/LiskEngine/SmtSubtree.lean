import LiskEngine.LeafTree
import LiskEngine.SparseTree
import LiskEngine.Smt

/-! Subtrees as trees of nodes. The hasher folds the tree a structure lists, the calculation
of a subtree settles it, and an encoded subtree is read back. -/
namespace LiskEngine.Smt
open List

abbrev Tree := SparseTree Bytes Bytes
open LeafTree

theorem indexOk {α : Type} {vs i} {a : α} (hit : vs[i]? = some a) : index vs i = .ok a := by
  simp [index,hit]

def shown : LeafTree Node → Node
  | tip n => n
  | fork _ _ => .temp

def combine : LeafTree Node → LeafTree Node → LeafTree Node
  | tip .empty, tip .empty => tip .empty
  | tip .empty, tip (.leaf k v) => tip (.leaf k v)
  | tip (.leaf k v), tip .empty => tip (.leaf k v)
  | l, r => fork l r

def settle : LeafTree Node → LeafTree Node
  | tip n => tip n
  | fork l r => combine (settle l) (settle r)

theorem settleFold (u : LeafTree Node) : (u.map tip).fold combine = settle u := by
  induction u with
  | tip n => rfl
  | fork l r ihl ihr => simp only [LeafTree.map,fold,settle,ihl,ihr]

def structureOf (x : LeafTree Node) (d : Nat) : NodeStructure :=
  ⟨(x.listed d).map Prod.fst,(x.listed d).map Prod.snd⟩

def heldParts : List (LeafTree Node × Nat) → List NodeStructure
  | [] => []
  | (tip _, _) :: rest => heldParts rest
  | (fork l r, d) :: rest => structureOf (fork l r) d :: heldParts rest

def Fresh (height : Nat) (items : List (LeafTree Node × Nat)) : Prop :=
  ∀ e ∈ items, e.1 ≠ tip .temp ∧ (∀ l r, e.1 = fork l r → e.2 = height)

theorem combineTemp {x y} (left : x ≠ tip .temp) (right : y ≠ tip .temp) : combine x y ≠ tip .temp := by
  unfold combine
  split <;> simp_all

theorem mergeFresh {height items} (fresh : Fresh height items) (paired : Paired height items) :
    Fresh (height-1) (mergeLevel combine height items) := by
  induction items using mergeLevel.induct height with
  | case1 => simp [Fresh,mergeLevel]
  | case2 e =>
    intro x mem
    cases mem_singleton.mp mem
    exact ⟨(fresh e mem).1,fun l r isFork => absurd ((fresh e mem).2 l r isFork) paired⟩
  | case3 e e' rest same ih =>
    rw [Paired,if_pos same] at paired
    have below := ih (fun x mem => fresh x (by simp [mem])) paired.2
    rw [mergeLevel,if_pos same]
    intro x mem
    rcases mem_cons.mp mem with rfl | later
    · exact ⟨combineTemp (fresh e (by simp)).1 (fresh e' (by simp)).1,fun _ _ _ => rfl⟩
    · exact below x later
  | case4 e e' rest ne ih =>
    rw [Paired,if_neg ne] at paired
    have below := ih (fun x mem => fresh x (.tail _ mem)) paired
    rw [mergeLevel,if_neg ne]
    intro x mem
    rcases mem_cons.mp mem with rfl | later
    · exact ⟨(fresh x (by simp)).1,fun l r isFork => absurd ((fresh x (by simp)).2 l r isFork) ne⟩
    · exact below x later

theorem takeTempPart {x} (plain : x ≠ tip .temp) (d : Nat) (rest : List NodeStructure) :
    takeTemp (shown x) d ((heldParts [(x,d)] ++ rest).reverse) = .ok (structureOf x d,rest.reverse) := by
  cases x with
  | tip n =>
    have real : n ≠ .temp := fun same => plain (by rw [same])
    simp [takeTemp,shown,real,heldParts,structureOf,listed]
  | fork l r => simp [takeTemp,shown,heldParts]

theorem heldPartsCons (x : LeafTree Node) (d : Nat) (rest : List (LeafTree Node × Nat)) :
    heldParts ((x,d)::rest) = heldParts [(x,d)] ++ heldParts rest := by
  cases x <;> rfl

theorem parentNodePart {x y height} (left : x ≠ tip .temp) (right : y ≠ tip .temp) (pos : 0 < height) (rest : List NodeStructure) :
    parentNode (shown x) (shown y) height height ((heldParts [(x,height)] ++ (heldParts [(y,height)] ++ rest)).reverse) =
      .ok (shown (combine x y),(rest ++ heldParts [(combine x y,height-1)]).reverse) := by
  have general : combine x y = fork x y → (do
        let l ← takeTemp (shown x) height ((heldParts [(x,height)] ++ (heldParts [(y,height)] ++ rest)).reverse)
        let r ← takeTemp (shown y) height l.2
        .ok (Node.temp,⟨l.1.nodes ++ r.1.nodes,l.1.struct ++ r.1.struct⟩::r.2) : Except SmtError (Node × List NodeStructure)) =
      .ok (shown (combine x y),(rest ++ heldParts [(combine x y,height-1)]).reverse) := by
    intro isFork
    rw [takeTempPart left,isFork]
    simp only [bind,Except.bind]
    rw [takeTempPart right]
    simp [shown,heldParts,structureOf,listed,Nat.sub_add_cancel pos]
  cases x with
  | fork l r => exact general rfl
  | tip n =>
    cases y with
    | fork l r => cases n <;> exact general rfl
    | tip n' => cases n <;> cases n' <;> first | exact general rfl | simp [parentNode,shown,combine,heldParts]

theorem subTreeLevelMerge {height} (pos : 0 < height) {items} (fresh : Fresh height items) (paired : Paired height items)
    (produced : List NodeStructure) :
    subTreeLevel height (items.map (fun e => shown e.1)) (items.map Prod.snd) ((heldParts items ++ produced).reverse) =
      .ok ((mergeLevel combine height items).map (fun e => shown e.1),(mergeLevel combine height items).map Prod.snd,
        (produced ++ heldParts (mergeLevel combine height items)).reverse) := by
  induction items using mergeLevel.induct height generalizing produced with
  | case1 => simp [subTreeLevel,mergeLevel,heldParts]
  | case2 e =>
    obtain ⟨x,d⟩ := e
    have ne : d ≠ height := paired
    cases x with
    | tip n => simp [subTreeLevel,mergeLevel,heldParts,ne]
    | fork l r => exact absurd ((fresh (fork l r,d) (by simp)).2 l r rfl) ne
  | case3 e e' rest same ih =>
    obtain ⟨x,d⟩ := e
    obtain ⟨y,d'⟩ := e'
    subst same
    rw [Paired,if_pos rfl] at paired
    obtain ⟨rfl,paired⟩ := paired
    have parent := parentNodePart (fresh (x,d') (by simp)).1 (fresh (y,d') (by simp)).1 pos
      (heldParts rest ++ produced)
    have later := ih (fun e mem => fresh e (by simp [mem])) paired (produced ++ heldParts [(combine x y,d'-1)])
    have reorder : heldParts ((x,d')::(y,d')::rest) ++ produced =
        heldParts [(x,d')] ++ (heldParts [(y,d')] ++ (heldParts rest ++ produced)) := by
      rw [heldPartsCons,heldPartsCons y]
      simp
    rw [reorder]
    simp only [map_cons,subTreeLevel,ne_eq,not_true,if_false,index,getElem?_cons_zero,bind,Except.bind,parent,tail_cons]
    rw [append_assoc,later]
    simp only [mergeLevel,if_true,map_cons]
    rw [heldPartsCons (combine x y) _ (mergeLevel combine d' rest)]
    simp
  | case4 e e' rest ne ih =>
    obtain ⟨x,d⟩ := e
    rw [Paired,if_neg ne] at paired
    have later := ih (fun e mem => fresh e (.tail _ mem)) paired produced
    cases x with
    | fork l r => exact absurd ((fresh (fork l r,d) (by simp)).2 l r rfl) ne
    | tip n =>
      have same : mergeLevel combine height ((tip n,d)::e'::rest) =
          (tip n,d)::mergeLevel combine height (e'::rest) := by rw [mergeLevel,if_neg ne]
      rw [same]
      simp only [map_cons] at later ⊢
      simp only [heldParts]
      rw [subTreeLevel,if_pos ne,later]
      rfl

theorem foldMaxLe (vs : List Nat) (base bound : Nat) : vs.foldl max base ≤ bound ↔ base ≤ bound ∧ ∀ x ∈ vs, x ≤ bound := by
  induction vs generalizing base with
  | nil => simp
  | cons x rest ih =>
    rw [foldl_cons,ih,Nat.max_le]
    simp [and_assoc]

theorem maxOfListed {α : Type} (t : LeafTree α) : maxOf ((t.listed 0).map Prod.snd) = t.depth := by
  refine Nat.le_antisymm ((foldMaxLe _ _ _).mpr ⟨Nat.zero_le _,?_⟩) ?_
  · intro x mem
    obtain ⟨e,listed,rfl⟩ := mem_map.mp mem
    have := (listedDepth listed).2
    omega
  · obtain ⟨e,listed,deep⟩ := deepestListed t 0
    have := ((foldMaxLe _ 0 _).mp (Nat.le_refl _)).2 e.2 (mem_map_of_mem listed)
    rw [deep,Nat.zero_add] at this
    exact this

section
variable (sha : Bytes → Bytes)

def hashFold (x : LeafTree Node) : Bytes := (x.map (Node.hash sha)).fold (branchHash sha)

def subTreeOf (x : LeafTree Node) : SubTree := ⟨(x.listed 0).map Prod.snd,hashFold sha x,(x.listed 0).map Prod.fst⟩

variable {sha}

theorem hashLevelMerge {height items} (paired : Paired height items) : hashLevel sha height (items.map Prod.fst) (items.map Prod.snd) =
      .ok ((mergeLevel (branchHash sha) height items).map Prod.fst,(mergeLevel (branchHash sha) height items).map Prod.snd) := by
  induction items using mergeLevel.induct height with
  | case1 => rfl
  | case2 e =>
    have ne : e.2 ≠ height := paired
    simp [hashLevel,mergeLevel,ne]
  | case3 e e' rest same ih =>
    rw [Paired,if_pos same] at paired
    have later := ih paired.2
    simp [hashLevel,mergeLevel,same,later,bind,Except.bind]
  | case4 e e' rest ne ih =>
    rw [Paired,if_neg ne] at paired
    have later := ih paired
    simp only [map_cons] at later ⊢
    simp [hashLevel,mergeLevel,ne,later,bind,Except.bind]

theorem treeHasherFold {t : LeafTree Bytes} {n} (bound : t.depth ≤ n) :
    treeHasher sha n ((t.listed 0).map Prod.fst) ((t.listed 0).map Prod.snd) = .ok (t.fold (branchHash sha)) := by
  induction n generalizing t with
  | zero =>
    cases t with
    | tip h => rfl
    | fork l r => simp [depth] at bound
  | succ n ih =>
    cases t with
    | tip h => simp [listed,treeHasher,fold]
    | fork l r =>
      have level : hashLevel sha (n+1) _ _ = _ := hashLevelMerge (pairedTop bound)
      rw [mergeTop _ bound] at level
      have below := ih (collapseDepth (branchHash sha) bound)
      rw [collapseFold] at below
      have several : ∀ h, ((fork l r).listed 0).map Prod.fst = [h] → False := by
        intro h single
        have two := listedTwo l r 0
        rw [← length_map Prod.fst,single] at two
        simp at two
      rw [treeHasher.eq_3 _ _ _ _ several,level]
      split
      · rename_i last
        subst last
        rfl
      · exact below

theorem hashedListed (x : LeafTree Node) : (((x.listed 0).map Prod.fst).map (Node.hash sha)) =
    (((x.map (Node.hash sha)).listed 0).map Prod.fst) := by
  simp [listedMap]

theorem newSubtreeFromDataOf (x : LeafTree Node) :
    newSubtreeFromData sha ((x.listed 0).map Prod.snd) ((x.listed 0).map Prod.fst) = .ok (subTreeOf sha x) := by
  have heights : (x.listed 0).map Prod.snd = ((x.map (Node.hash sha)).listed 0).map Prod.snd := by simp [listedMap]
  have hasher : treeHasher sha _ _ _ = _ := treeHasherFold (t := x.map (Node.hash sha)) (Nat.le_refl _)
  unfold newSubtreeFromData
  rw [hashedListed,heights,maxOfListed,hasher]
  simp [bind,Except.bind,subTreeOf,hashFold,heights]

theorem calculateParts {w : LeafTree (LeafTree Node)} {n} (bound : w.depth ≤ n+1) (fresh : Fresh (n+1) (w.listed 0)) :
    calculateSubTree sha (n+1) ((w.listed 0).map (fun e => shown e.1)) ((w.listed 0).map Prod.snd)
      (heldParts (w.listed 0)).reverse = .ok (subTreeOf sha (w.fold combine)) := by
  induction n generalizing w with
  | zero =>
    have level := subTreeLevelMerge (Nat.succ_pos _) fresh (pairedTop bound) []
    have settled := mergeFresh fresh (pairedTop bound)
    rw [mergeTop _ bound] at level settled
    rw [append_nil,nil_append] at level
    have whole := mergeLevelsListed combine bound
    simp only [mergeLevels,mergeTop _ bound] at whole
    rw [whole] at level settled
    rw [calculateSubTree,level]
    simp only [bind,Except.bind,if_true,map_cons,map_nil]
    rw [indexOk (a := shown (w.fold combine)) rfl]
    cases folded : w.fold combine with
    | tip node =>
      have real : node ≠ .temp := fun same => (settled (w.fold combine,0) (by simp)).1 (by rw [folded,same])
      simp only [shown,real,if_false]
      exact newSubtreeFromDataOf (tip node)
    | fork l r =>
      simp only [shown,if_true,heldParts,reverse_singleton]
      exact newSubtreeFromDataOf (fork l r)
  | succ n ih =>
    have level := subTreeLevelMerge (Nat.succ_pos _) fresh (pairedTop bound) []
    have settled := mergeFresh fresh (pairedTop bound)
    rw [mergeTop _ bound] at level settled
    rw [append_nil,nil_append] at level
    have below := ih (collapseDepth combine bound) settled
    rw [collapseFold] at below
    rw [calculateSubTree,level]
    simpa only [bind,Except.bind,Nat.succ_ne_zero,if_false] using below

theorem calculateSettled {u} (plain : ∀ n ∈ u.leaves, n ≠ .temp) :
    calculateSubTree sha (maxOf ((u.listed 0).map Prod.snd)) ((u.listed 0).map Prod.fst) ((u.listed 0).map Prod.snd) [] =
      .ok (subTreeOf sha (settle u)) := by
  rw [maxOfListed]
  cases deep : u.depth with
  | zero =>
    cases u with
    | tip n => exact newSubtreeFromDataOf (tip n)
    | fork l r => simp [depth] at deep
  | succ n =>
    have parts := listedMap tip u 0
    have absent : heldParts ((u.map tip).listed 0) = [] := by
      rw [parts]
      induction u.listed 0 with
      | nil => rfl
      | cons e rest ih => simpa [heldParts] using ih
    have fresh : Fresh (n+1) ((u.map tip).listed 0) := by
      rw [parts]
      intro e mem
      obtain ⟨e,listed,rfl⟩ := mem_map.mp mem
      refine ⟨fun same => ?_,by simp⟩
      have inside : e.1 ∈ u.leaves := by rw [← listedLeaves u 0]; exact mem_map_of_mem listed
      exact plain e.1 inside (by simpa using same)
    have bound : (u.map tip).depth ≤ n+1 := by rw [depthMap,deep]
    have res : calculateSubTree sha (n+1) _ _ _ = _ := calculateParts bound fresh
    rw [settleFold,absent,parts] at res
    simpa [Function.comp_def,shown] using res

def Node.isStub : Node → Bool
  | .stub _ => true
  | _ => false

def collapsible : LeafTree Node → LeafTree Node → Bool
  | tip .empty, tip .empty => true
  | tip .empty, tip (.leaf _ _) => true
  | tip (.leaf _ _), tip .empty => true
  | _, _ => false

def Normal : LeafTree Node → Prop
  | tip _ => True
  | fork l r => collapsible l r = false ∧ Normal l ∧ Normal r

theorem combineCases (l r : LeafTree Node) : combine l r = fork l r ∧ collapsible l r = false ∨
    ∃ a b c, l = tip a ∧ r = tip b ∧ combine l r = tip c ∧ a.isStub = false ∧ b.isStub = false ∧ c.isStub = false ∧
      [a,b].filter (· ≠ .empty) = [c].filter (· ≠ .empty) := by
  unfold combine
  split
  · exact .inr ⟨_,_,_,rfl,rfl,rfl,rfl,rfl,rfl,rfl⟩
  · exact .inr ⟨_,_,_,rfl,rfl,rfl,rfl,rfl,rfl,rfl⟩
  · exact .inr ⟨_,_,_,rfl,rfl,rfl,rfl,rfl,rfl,rfl⟩
  · refine .inl ⟨rfl,?_⟩
    unfold collapsible
    split <;> simp_all

theorem settleNormal (u : LeafTree Node) : Normal (settle u) ∧ (settle u).depth ≤ u.depth ∧
    (settle u).leaves.filter (· ≠ .empty) = u.leaves.filter (· ≠ .empty) ∧
    ∀ d, ((settle u).listed d).filter (·.1.isStub) = (u.listed d).filter (·.1.isStub) := by
  induction u with
  | tip n => exact ⟨trivial,le_rfl,rfl,fun _ => rfl⟩
  | fork l r ihl ihr =>
    obtain ⟨normal,low,nodes,stubs⟩ := ihl
    obtain ⟨normal',low',nodes',stubs'⟩ := ihr
    rw [settle,LeafTree.leaves,filter_append,← nodes,← nodes']
    simp only [depth,listed,filter_append,← stubs,← stubs']
    rcases combineCases (settle l) (settle r) with ⟨isFork,apart⟩ | ⟨a,b,c,left,right,isTip,plain,plain',plain'',same⟩
    · rw [isFork]
      refine ⟨⟨apart,normal,normal'⟩,by simp only [depth]; omega,by rw [LeafTree.leaves,filter_append],fun d => ?_⟩
      rw [listed,filter_append]
    · rw [isTip,left,right]
      refine ⟨trivial,Nat.zero_le _,?_,fun d => by simp [listed,plain,plain',plain'']⟩
      rw [← filter_append]
      exact same.symm

theorem subTreeNormalForm (sha : Bytes → Bytes) (u : LeafTree Node) (low : u.depth ≤ 8) (plain : ∀ n ∈ u.leaves, n ≠ .temp)
    (stubs : ∀ e ∈ u.listed 0, e.1.isStub = true → e.2 = 8) :
    ∃ v t, calculateSubTree sha (maxOf ((u.listed 0).map Prod.snd)) ((u.listed 0).map Prod.fst) ((u.listed 0).map Prod.snd) [] = .ok t ∧
      t.struct = (v.listed 0).map Prod.snd ∧ t.nodes = (v.listed 0).map Prod.fst ∧ v.depth ≤ 8 ∧
      (∀ e ∈ v.listed 0, e.1.isStub = true → e.2 = 8) ∧ Normal v ∧
      t.nodes.filter (· ≠ .empty) = ((u.listed 0).map Prod.fst).filter (· ≠ .empty) ∧ t.root = hashFold sha (settle u) := by
  obtain ⟨normal,deep,nodes,kept⟩ := settleNormal u
  refine ⟨settle u,_,calculateSettled plain,rfl,rfl,deep.trans low,fun e mem stub => ?_,normal,?_,rfl⟩
  · have hit : e ∈ ((settle u).listed 0).filter (·.1.isStub) := mem_filter.mpr ⟨mem,stub⟩
    rw [kept] at hit
    exact stubs e (mem_filter.mp hit).1 stub
  · rw [listedLeaves]
    exact (congrArg _ (listedLeaves _ 0)).trans nodes

theorem subTreeNormalFormSample : ∃ t, calculateSubTree id 2 [.empty,.leaf [7] [8],.empty] [2,2,1] [] = .ok t ∧
    t.nodes.filter (· ≠ .empty) = [.leaf [7] [8]] := by
  obtain ⟨_,t,ok,_,_,_,_,_,kept,_⟩ := subTreeNormalForm id (fork (fork (tip .empty) (tip (.leaf [7] [8]))) (tip .empty)) (by decide)
    (by decide) (by decide)
  exact ⟨t,ok,kept⟩

def Node.Sized (keyLength size : Nat) : Node → Prop
  | .empty => True
  | .leaf key value => key.length = keyLength ∧ value.length = size
  | .stub nodeHash => nodeHash.length = size
  | .temp => False

theorem sliceAppend {a len} (size : a.length = len) (b : Bytes) : slice (a ++ b) len = .ok (a,b) := by
  subst size
  simp [slice]

theorem parseNodesData {len nodes} (sized : ∀ n ∈ nodes, n.Sized len (hashSize sha)) {fuel}
    (enough : (nodes.flatMap Node.data).length ≤ fuel) (idx : Nat) :
    parseNodes sha len fuel idx (nodes.flatMap Node.data) = .ok nodes := by
  induction nodes generalizing fuel idx with
  | nil => cases fuel <;> rfl
  | cons n rest ih =>
    have first := sized n (.head _)
    have later := fun fuel => @ih (fun n mem => sized n (.tail _ mem)) fuel
    cases n with
    | temp => exact first.elim
    | empty =>
      obtain ⟨fuel,rfl⟩ : ∃ m, fuel = m+1 := ⟨fuel - 1,by simp [Node.data] at enough; omega⟩
      have tail := later fuel (by simp [Node.data] at enough ⊢; omega) (idx+1)
      simp [Node.data,parseNodes,tail,bind,Except.bind]
    | stub nodeHash =>
      obtain ⟨fuel,rfl⟩ : ∃ m, fuel = m+1 := ⟨fuel - 1,by simp [Node.data] at enough; omega⟩
      have tail := later fuel (by simp [Node.data] at enough ⊢; omega) (idx+1+hashSize sha)
      simp [Node.data,parseNodes,sliceAppend first,tail,bind,Except.bind]
    | leaf key value =>
      obtain ⟨fuel,rfl⟩ : ∃ m, fuel = m+1 := ⟨fuel - 1,by simp [Node.data] at enough; omega⟩
      have tail := later fuel (by simp [Node.data] at enough ⊢; omega) (idx+1+len+hashSize sha)
      simp [Node.data,parseNodes,sliceAppend first.1,sliceAppend first.2,tail,bind,Except.bind,append_assoc]

theorem newSubTreeData {len struct nodes t} (built : newSubtreeFromData sha struct nodes = .ok t)
    (pos : 0 < struct.length) (few : struct.length ≤ 256) (heights : ∀ h ∈ struct, h ≤ 8)
    (sized : ∀ n ∈ nodes, n.Sized len (hashSize sha)) : newSubTree sha t.encode len = .ok t := by
  have fields : t.struct = struct ∧ t.nodes = nodes := by
    obtain ⟨root,_,same⟩ := bindOk built
    cases same
    exact ⟨rfl,rfl⟩
  have length : (UInt8.ofNat (struct.length+255)).toNat+1 = struct.length := by
    rw [UInt8.toNat_ofNat']
    omega
  have bytes : (struct.map UInt8.ofNat).map UInt8.toNat = struct := by
    rw [map_map]
    refine (map_congr_left (fun h mem => ?_)).trans (map_id _)
    have := heights h mem
    simp only [Function.comp_apply,UInt8.toNat_ofNat',id]
    omega
  simp only [SubTree.encode,fields.1,fields.2,newSubTree]
  rw [sliceAppend (by rw [length_map,length])]
  simp only [bind,Except.bind]
  rw [parseNodesData sized (Nat.le_refl _) 0,bytes]
  exact built

theorem newSubTreeEncode {x len} (sized : ∀ n ∈ x.leaves, n.Sized len (hashSize sha)) (bound : x.depth ≤ 8) :
    newSubTree sha (subTreeOf sha x).encode len = .ok (subTreeOf sha x) := by
  have count : ((x.listed 0).map Prod.snd).length = x.leaves.length := by
    rw [length_map,← listedLeaves x 0,length_map]
  have filled : 0 < x.leaves.length := by
    rw [← listedLeaves x 0,length_map]
    exact length_pos_of_ne_nil (listedNonempty x 0)
  refine newSubTreeData (newSubtreeFromDataOf x) (count ▸ filled) (count ▸ leavesLength bound) (fun h mem => ?_)
    (by rw [listedLeaves]; exact sized)
  obtain ⟨e,listed,rfl⟩ := mem_map.mp mem
  have := (listedDepth listed).2
  omega

theorem subTreeRoundTrip {keyLength struct nodes t} (size : ∀ data, (sha data).length = 32)
    (built : newSubtreeFromData sha struct nodes = .ok t) (positive : 1 ≤ struct.length) (few : struct.length ≤ 256)
    (heights : ∀ h ∈ struct, h ≤ 8) (sized : ∀ n ∈ nodes, n.Sized keyLength 32) : newSubTree sha t.encode keyLength = .ok t := by
  have same : hashSize sha = 32 := size []
  exact newSubTreeData built positive few heights (same ▸ sized)

theorem subTreeRoundTripSample : newSubTree (fun _ => List.replicate 32 1)
      (SubTree.encode ⟨[1,1],List.replicate 32 1,[.empty,.leaf [7] (List.replicate 32 2)]⟩) 1 =
      .ok ⟨[1,1],List.replicate 32 1,[.empty,.leaf [7] (List.replicate 32 2)]⟩ :=
  subTreeRoundTrip (fun _ => rfl) (show newSubtreeFromData _ [1,1] [.empty,.leaf [7] (replicate 32 2)] = _ from rfl)
    (by decide) (by decide) (by decide) (by simp [Node.Sized])

end

section
variable (sha : Bytes → Bytes)

def preimageBytes : SparseTree.Preimage Bytes Bytes Bytes → Bytes
  | .empty => []
  | .leaf key value => 0 :: (key ++ value)
  | .branch left right => 1 :: (left ++ right)

def digest (p : SparseTree.Preimage Bytes Bytes Bytes) : Bytes := sha (preimageBytes p)

def treeRoot (t : Tree) : Bytes := t.root (digest sha)

def cut : Nat → Tree → LeafTree Node
  | _, .empty => tip .empty
  | _, .leaf key value => tip (.leaf key value)
  | 0, .node l r => tip (.stub (treeRoot sha (.node l r)))
  | j + 1, .node l r => fork (cut j l) (cut j r)

def stored (h : Nat) (t : Tree) : SubTree := subTreeOf sha (cut sha h t)

variable {sha}

@[simp] theorem cutEmpty (j : Nat) : cut sha j .empty = tip .empty := by cases j <;> rfl

@[simp] theorem cutLeaf (j : Nat) (key value : Bytes) : cut sha j (.leaf key value) = tip (.leaf key value) := by
  cases j <;> rfl

theorem cutTip {j t n} (shape : cut sha j t = tip n) :
    (t = .empty ∧ n = .empty) ∨ (∃ key value, t = .leaf key value ∧ n = .leaf key value) ∨
      (∃ l r, j = 0 ∧ t = .node l r ∧ n = .stub (treeRoot sha t)) := by
  cases t with
  | empty | leaf key value => simp_all
  | node l r => cases j <;> simp_all [cut]

theorem cutDepth (j : Nat) (t : Tree) : (cut sha j t).depth ≤ j := by
  induction j, t using cut.induct with
  | case1 j | case2 j key value => simp [depth]
  | case3 l r => exact Nat.zero_le _
  | case4 j l r ihl ihr =>
    simp only [cut,depth]
    omega

theorem cutFold (j : Nat) (t : Tree) : hashFold sha (cut sha j t) = treeRoot sha t := by
  induction j, t using cut.induct with
  | case1 j => rw [cutEmpty]; rfl
  | case2 j key value => rw [cutLeaf]; rfl
  | case3 l r => rfl
  | case4 j l r ihl ihr =>
    simp only [hashFold] at ihl ihr
    simp only [cut,hashFold,LeafTree.map,fold,ihl,ihr]
    rfl

theorem combineCut (j : Nat) (l r : Tree) : combine (cut sha j l) (cut sha j r) = cut sha (j+1) (l.join r) := by
  cases l <;> cases r <;> cases j <;> rfl

theorem cutSized {len} (size : ∀ data, (sha data).length = hashSize sha) (j : Nat) {t}
    (sized : ∀ e ∈ t.entries, e.1.length = len ∧ e.2.length = hashSize sha) :
    ∀ n ∈ (cut sha j t).leaves, n.Sized len (hashSize sha) := by
  induction j, t using cut.induct with
  | case1 j => simp [leaves,Node.Sized]
  | case2 j key value => simpa [leaves,Node.Sized,SparseTree.entries] using sized
  | case3 l r => intro n mem; cases mem_singleton.mp mem; exact size _
  | case4 j l r ihl ihr =>
    intro n mem
    rcases mem_append.mp mem with inLeft | inRight
    · exact ihl (fun e inside => sized e (mem_append_left _ inside)) n inLeft
    · exact ihr (fun e inside => sized e (mem_append_right _ inside)) n inRight

theorem cutPlain (j : Nat) (t : Tree) : ∀ n ∈ (cut sha j t).leaves, n ≠ .temp := by
  induction j, t using cut.induct with
  | case1 j | case2 j key value => simp [leaves]
  | case3 l r => simp [cut,leaves]
  | case4 j l r ihl ihr =>
    intro n mem
    exact (mem_append.mp mem).elim (ihl n) (ihr n)

theorem storedRead {len h} (size : ∀ data, (sha data).length = hashSize sha) (low : h ≤ 8) {t}
    (sized : ∀ e ∈ t.entries, e.1.length = len ∧ e.2.length = hashSize sha) :
    newSubTree sha (stored sha h t).encode len = .ok (stored sha h t) :=
  newSubTreeEncode (cutSized size h sized) ((cutDepth h t).trans low)

theorem storedRoot (h : Nat) (t : Tree) : (stored sha h t).root = treeRoot sha t := cutFold h t

end
end LiskEngine.Smt
