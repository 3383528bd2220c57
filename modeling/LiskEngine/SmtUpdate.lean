import LiskEngine.SmtBins

/-! The update of a trie against a store. Every part of the key space is updated to
the tree of its written entries, the subtrees below stay held, and nothing outside
the part's own subtrees changes in the store. -/
namespace LiskEngine.Smt
open List SparseTree
open LeafTree (tip fork)

structure Store (σ : Type) extends DB σ where
  content : σ → Bytes → Option Bytes
  contentSet : ∀ s key value key', content (set s key value) key' = if key' = key then some value else content s key'
  contentDel : ∀ s key key', content (del s key) key' = if key' = key then none else content s key'
  getSet : ∀ s key value key', key' ≠ key → get (set s key value) key' = get s key'
  getDel : ∀ s key key', key' ≠ key → get (del s key) key' = get s key'

structure Hashing (sha : Bytes → Bytes) (S : Tree → Prop) : Prop where
  size : ∀ data, (sha data).length = hashSize sha
  unique : ∀ x y, S x → S y → treeRoot sha x = treeRoot sha y → x = y
  full : ∀ x, S x → x.entries = [] → x = .empty
  down : ∀ x y, S y → x ∈ y.subtrees → S x
  empty : S .empty

section
variable (sha : Bytes → Bytes)

/-- The subtrees at every `h`th level below a tree, the next one `j` levels down. -/
def Held (h : Nat) (read : Bytes → Option Bytes) : Nat → Tree → Prop
  | _, .empty => True
  | _, .leaf _ _ => True
  | 0, .node l r => read (treeRoot sha (.node l r)) = some (stored sha h (.node l r)).encode ∧
    Held h read (h - 1) l ∧ Held h read (h - 1) r
  | j + 1, .node l r => Held h read j l ∧ Held h read j r

def Touched (t t' : Tree) (key : Bytes) : Prop :=
  key = emptyHash sha ∨ ∃ x, (x ∈ t.subtrees ∨ x ∈ t'.subtrees) ∧ treeRoot sha x = key

variable {σ : Type} (store : Store σ)

def SizedTree (keyLength : Nat) (t : Tree) : Prop := ∀ e ∈ t.entries, e.1.length = keyLength ∧ e.2.length = hashSize sha

def Frame (t t' : Tree) (s s' : σ) : Prop :=
  ∀ key, ¬Touched sha t t' key → store.content s' key = store.content s key ∧ store.get s' key = store.get s key

structure Ready (h keyLength : Nat) (s : σ) (j : Nat) (t : Tree) : Prop where
  reads : Held sha h (store.get s) j t
  holds : Held sha h (store.content s) j t
  sized : SizedTree sha keyLength t

structure Outcome (h : Nat) (s s' : σ) (j : Nat) (t t' : Tree) (u : LeafTree Node) : Prop where
  plain : ∀ n ∈ u.leaves, n ≠ .temp
  settled : settle u = cut sha j t'
  holds : Held sha h (store.content s') j t'
  framed : Frame sha store t t' s s'

end

variable {sha : Bytes → Bytes} {h keyLength : Nat} {S : Tree → Prop} {σ : Type} {store : Store σ}

@[simp] theorem heldEmpty (read : Bytes → Option Bytes) (j : Nat) : Held sha h read j .empty := by
  cases j <;> trivial

@[simp] theorem heldLeaf (read : Bytes → Option Bytes) (j : Nat) (key value : Bytes) : Held sha h read j (.leaf key value) := by
  cases j <;> trivial

theorem heldTip (noNode : ∀ a b, t ≠ .node a b) (read : Bytes → Option Bytes) (j : Nat) : Held sha h read j t := by
  cases t with
  | empty | leaf key value => simp
  | node l r => exact absurd rfl (noNode l r)

theorem heldCongr {read read' t j} (held : Held sha h read j t)
    (agree : ∀ l r, .node l r ∈ t.subtrees → read' (treeRoot sha (.node l r)) = read (treeRoot sha (.node l r))) :
    Held sha h read' j t := by
  induction t generalizing j with
  | empty | leaf key value => simp
  | node l r ihl ihr =>
    have left := fun a b inside => agree a b (.tail _ (mem_append_left _ inside))
    have right := fun a b inside => agree a b (.tail _ (mem_append_right _ inside))
    cases j with
    | zero => exact ⟨(agree l r (selfSubtree _)).trans held.1,ihl held.2.1 left,ihr held.2.2 right⟩
    | succ j => exact ⟨ihl held.1 left,ihr held.2 right⟩

theorem heldNode {read l r} (high : 0 < h) (below : Held sha h read (h-1) l ∧ Held sha h read (h-1) r) :
    Held sha h read h (.node l r) := by
  obtain ⟨k,rfl⟩ := Nat.exists_eq_succ_of_ne_zero high.ne'
  exact below

theorem heldJoin {read l r j} (left : Held sha h read j l) (right : Held sha h read j r) : Held sha h read (j+1) (l.join r) := by
  cases l <;> cases r <;> simp [join,Held,left,right]

theorem sizedJoin : SizedTree sha len (l.join r) ↔ SizedTree sha len l ∧ SizedTree sha len r := by
  unfold SizedTree
  rw [joinEntries,forall_mem_append]

theorem touchedJoin (touched : Touched sha l l' key ∨ Touched sha r r' key) : Touched sha (l.join r) (l'.join r') key := by
  have hit : ∀ x, (x = .empty ∨ x ∈ (l.join r).subtrees) ∨ (x = .empty ∨ x ∈ (l'.join r').subtrees) →
      treeRoot sha x = key → Touched sha (l.join r) (l'.join r') key := by
    rintro x ((rfl | inside) | (rfl | inside)) rfl
    · exact .inl rfl
    · exact .inr ⟨x,Or.inl inside,rfl⟩
    · exact .inl rfl
    · exact .inr ⟨x,Or.inr inside,rfl⟩
  rcases touched with (same | ⟨x,inside,root⟩) | (same | ⟨x,inside,root⟩)
  · exact .inl same
  · exact hit x (inside.imp (joinLeft · r) (joinLeft · r')) root
  · exact .inl same
  · exact hit x (inside.imp (joinRight · l) (joinRight · l')) root

theorem frameJoin (left : Frame sha store l l' s s1) (right : Frame sha store r r' s1 s2) :
    Frame sha store (l.join r) (l'.join r') s s2 := by
  intro key untouched
  have first := left key (fun touched => untouched (touchedJoin (.inl touched)))
  have second := right key (fun touched => untouched (touchedJoin (.inr touched)))
  exact ⟨second.1.trans first.1,second.2.trans first.2⟩

section
variable (hashing : Hashing sha S)
include hashing

theorem joinInside (inside : S (l.join r)) : S l ∧ S r := by
  constructor
  · rcases joinLeft (selfSubtree l) r with rfl | below
    · exact hashing.empty
    · exact hashing.down _ _ inside below
  rcases joinRight (selfSubtree r) l with rfl | below
  · exact hashing.empty
  · exact hashing.down _ _ inside below

theorem untouchedOutside {Q : Bytes → Prop} (inside : S t) (inside' : S t') (known : S x) (keys : ∀ e ∈ t.entries, Q e.1)
    (keys' : ∀ e ∈ t'.entries, Q e.1) (isNode : x ≠ .empty) (out : ∀ e ∈ x.entries, ¬Q e.1) : ¬Touched sha t t' (treeRoot sha x) := by
  obtain ⟨e,mem⟩ := exists_mem_of_ne_nil _ (fun absent => isNode (hashing.full x known absent))
  rintro (same | ⟨y,below,same⟩)
  · exact isNode (hashing.unique _ _ known hashing.empty same)
  rcases below with below | below
  · cases hashing.unique _ _ (hashing.down _ _ inside below) known same
    exact out e mem (keys e (subtreeEntries below e mem))
  · cases hashing.unique _ _ (hashing.down _ _ inside' below) known same
    exact out e mem (keys' e (subtreeEntries below e mem))

theorem heldOutside {t t' x} {Q : Bytes → Prop} {read read' j} (inside : S t) (inside' : S t') (known : S x)
    (keys : ∀ e ∈ t.entries, Q e.1) (keys' : ∀ e ∈ t'.entries, Q e.1) (out : ∀ e ∈ x.entries, ¬Q e.1)
    (framed : ∀ key, ¬Touched sha t t' key → read' key = read key) (held : Held sha h read j x) : Held sha h read' j x := by
  refine heldCongr held (fun l r below => framed _ ?_)
  refine untouchedOutside hashing inside inside' (hashing.down _ _ known below) keys keys' (by simp) ?_
  exact fun e mem => out e (subtreeEntries below e mem)

theorem heldBelow {t read read'} (high : 0 < h) (known : S t) (framed : ∀ key, key ≠ treeRoot sha t → read' key = read key)
    (held : Held sha h read h t) : Held sha h read' h t := by
  have child : ∀ {c : Tree} {j : Nat}, c ∈ t.subtrees → c.size < t.size → Held sha h read j c → Held sha h read' j c := by
    intro c j below smaller heldChild
    refine heldCongr heldChild (fun l r inside => framed _ (fun same => ?_))
    have whole := subtreeTrans inside below
    cases hashing.unique _ _ (hashing.down _ _ known whole) known same
    have := subtreeSize inside
    omega
  obtain ⟨k,rfl⟩ := Nat.exists_eq_succ_of_ne_zero high.ne'
  cases t with
  | empty | leaf key value => simp
  | node l r =>
    have inLeft : l ∈ (node l r).subtrees := mem_cons_of_mem _ (mem_append_left _ (selfSubtree l))
    have inRight : r ∈ (node l r).subtrees := mem_cons_of_mem _ (mem_append_right _ (selfSubtree r))
    exact ⟨child inLeft (by simp only [size]; omega) held.1,child inRight (by simp only [size]; omega) held.2⟩

theorem outcomeJoin {l r l' r'} {Q : Bytes → Prop} {s s1 s2 j ul ur} (inside : S (l.join r)) (inside' : S (l'.join r'))
    (keysLeft : ∀ e ∈ l'.entries, Q e.1) (keysRight : ∀ e ∈ r.entries, ¬Q e.1) (keysRight' : ∀ e ∈ r'.entries, ¬Q e.1)
    (left : Outcome sha store h s s1 j l l' ul) (right : Outcome sha store h s1 s2 j r r' ur) :
    Outcome sha store h s s2 (j+1) (l.join r) (l'.join r') (fork ul ur) where
  plain n mem := (mem_append.mp mem).elim (left.plain n) (right.plain n)
  settled := by rw [settle,left.settled,right.settled,combineCut]
  holds := by
    refine heldJoin ?_ right.holds
    exact heldOutside hashing (Q := fun key => ¬Q key) (joinInside hashing inside).2 (joinInside hashing inside').2
      (joinInside hashing inside').1 keysRight keysRight' (fun e mem => not_not_intro (keysLeft e mem))
        (fun key free => (right.framed key free).1)
      left.holds
  framed := frameJoin left.framed right.framed

theorem readyAfter {l r l'} {Q : Bytes → Prop} {s s1 j} (insideLeft : S l) (insideLeft' : S l') (insideRight : S r)
    (keysLeft : ∀ e ∈ l.entries, Q e.1) (keysLeft' : ∀ e ∈ l'.entries, Q e.1) (keysRight : ∀ e ∈ r.entries, ¬Q e.1)
    (framed : Frame sha store l l' s s1) (ready : Ready sha store h len s j r) : Ready sha store h len s1 j r where
  reads := heldOutside hashing insideLeft insideLeft' insideRight keysLeft keysLeft' keysRight
    (fun key free => (framed key free).2) ready.reads
  holds := heldOutside hashing insideLeft insideLeft' insideRight keysLeft keysLeft' keysRight
    (fun key free => (framed key free).1) ready.holds
  sized := ready.sized

theorem rootNotEmpty (known : S t) (isNode : t ≠ .empty) : ¬((treeRoot sha t).length = 0 ∨ treeRoot sha t = emptyHash sha) := by
  have ne : treeRoot sha t ≠ emptyHash sha := fun same => isNode (hashing.unique _ _ known hashing.empty same)
  rintro (short | same)
  · refine ne ?_
    have length : (treeRoot sha t).length = hashSize sha := by
      rw [treeRoot,rootPreimage]
      exact hashing.size _
    have absent := length.symm.trans short
    rw [length_eq_zero_iff.mp short,length_eq_zero_iff.mp absent]
  · exact ne same

theorem getSubtreeHeld (low : h ≤ 8) (length : trie.keyLength = len) (known : S t) (sized : SizedTree sha len t)
    (entry : t ≠ .empty → store.get s (treeRoot sha t) = some (stored sha h t).encode) :
    getSubtree sha store.toDB trie s (treeRoot sha t) = .ok (stored sha h t) := by
  unfold getSubtree
  by_cases isEmpty : t = .empty
  · subst isEmpty
    rw [if_pos (.inr (show treeRoot sha .empty = emptyHash sha from rfl)),stored,cutEmpty]
    rfl
  · rw [if_neg (rootNotEmpty hashing known isEmpty),entry isEmpty,length]
    exact storedRead hashing.size low sized

theorem bottomHeld {t trie} (high : 0 < h) (low : h ≤ 8) (length : trie.keyLength = len) (known : S t) {n s} (shape : cut sha 0 t = tip n)
    (ready : Ready sha store h len s 0 t) (t' : Tree) : ∃ s1, bottomSubTree sha store.toDB trie s n =
      .ok (s1,stored sha h t) ∧ Ready sha store h len s1 h t ∧ Frame sha store t t' s s1 := by
  rcases cutTip shape with ⟨rfl,rfl⟩ | ⟨key,value,rfl,rfl⟩ | ⟨l,r,_,rfl,rfl⟩
  · refine ⟨s,?_,⟨by simp,by simp,ready.sized⟩,fun _ _ => ⟨rfl,rfl⟩⟩
    have hit : getSubtree sha store.toDB trie s (treeRoot sha .empty) = _ :=
      getSubtreeHeld hashing low length hashing.empty ready.sized (fun ne => absurd rfl ne)
    simp only [bottomSubTree]
    rw [show emptyHash sha = treeRoot sha .empty from rfl,hit]
    rfl
  · refine ⟨s,?_,⟨by simp,by simp,ready.sized⟩,fun _ _ => ⟨rfl,rfl⟩⟩
    have made : newSubtreeFromData sha [0] [.leaf key value] = _ := newSubtreeFromDataOf (tip (.leaf key value))
    simp only [bottomSubTree,made,stored,cutLeaf]
    rfl
  · have hit := getSubtreeHeld hashing low length known ready.sized (fun _ => ready.reads.1)
    refine ⟨store.del s (treeRoot sha (.node l r)),?_,⟨?_,?_,ready.sized⟩,?_⟩
    · simp only [bottomSubTree,hit]
      rfl
    · exact heldBelow hashing high known (fun key differs => store.getDel s _ key differs) (heldNode high ready.reads.2)
    · refine heldBelow hashing high known (fun key differs => ?_) (heldNode high ready.holds.2)
      rw [store.contentDel,if_neg differs]
    · intro key free
      have differs : key ≠ treeRoot sha (.node l r) := fun same => free (.inr ⟨_,Or.inl (selfSubtree _),same.symm⟩)
      exact ⟨by rw [store.contentDel,if_neg differs],store.getDel s _ key differs⟩

end

section
variable (sha store h keyLength S)

/-- A part of the key space as its update finds it. -/
structure Part (P : Bytes → Prop) (n d j : Nat) (s : σ) (Q : Bytes → Prop) (entries keyValues : List KeyValue) : Prop where
  region : Region keyLength n d Q entries keyValues
  path : Path P d Q
  inside : S (treeOf n d entries)
  inside' : S (treeOf n d (written keyValues entries))
  ready : Ready sha store h keyLength s j (treeOf n d entries)

def Descends (P : Bytes → Prop) (m d : Nat) (descend : σ → List KeyValue → SubTree → Except SmtError (σ × SubTree)) : Prop :=
  ∀ s Q entries keyValues, Region keyLength (h * m) d Q entries keyValues → Path P d Q →
    (0 < d → ∃ a c, Q a ∧ Q c ∧ a ≠ c) → keyValues ≠ [] →
    S (treeOf (h * m) d entries) → S (treeOf (h * m) d (written keyValues entries)) →
    Ready sha store h keyLength s h (treeOf (h * m) d entries) →
    ∃ s', descend s keyValues (stored sha h (treeOf (h * m) d entries)) =
        .ok (s', stored sha h (treeOf (h * m) d (written keyValues entries))) ∧
      store.content s' (treeRoot sha (treeOf (h * m) d (written keyValues entries))) =
        some (stored sha h (treeOf (h * m) d (written keyValues entries))).encode ∧
      Held sha h (store.content s') h (treeOf (h * m) d (written keyValues entries)) ∧
      Frame sha store (treeOf (h * m) d entries) (treeOf (h * m) d (written keyValues entries)) s s'

end

theorem cutZero (t : Tree) : cut sha 0 t = tip (shown (cut sha 0 t)) := by
  cases t <;> rfl

theorem heldEntry {read t} (high : 0 < h) (entry : read (treeRoot sha t) = some (stored sha h t).encode) (held : Held sha h read h t) :
    Held sha h read 0 t := by
  cases t with
  | empty | leaf key value => simp
  | node l r =>
    obtain ⟨k,rfl⟩ := Nat.exists_eq_succ_of_ne_zero high.ne'
    exact ⟨entry,held⟩

theorem storedSingle (sha : Bytes → Bytes) (high : 0 < h) (t : Tree) : (stored sha h t).nodes = [shown (cut sha 0 t)] ∨
    ((∀ n, (stored sha h t).nodes ≠ [n]) ∧ ∃ l r, t = .node l r) := by
  obtain ⟨k,rfl⟩ := Nat.exists_eq_succ_of_ne_zero high.ne'
  cases t with
  | empty | leaf key value => exact .inl rfl
  | node l r =>
    refine .inr ⟨fun n single => ?_,l,r,rfl⟩
    have two := LeafTree.listedTwo (cut sha k l) (cut sha k r) 0
    have nodes : (stored sha (k+1) (.node l r)).nodes.length = ((fork (cut sha k l) (cut sha k r)).listed 0).length :=
      length_map _
    rw [← nodes,single] at two
    simp at two

theorem outcomeSettled {es} (region : Region len n d P es keyValues) (shape : cut sha j (treeOf n d es) = tip old)
    (ready : Ready sha store h len s j (treeOf n d es))
    (settled : settledBy keyValues old = some new) :
    Outcome sha store h s s j (treeOf n d es) (treeOf n d (written keyValues es)) (tip new) where
  plain node member := cutPlain j _ node (by rw [region.settled shape settled]; exact member)
  settled := (region.settled shape settled).symm
  holds := by
    match keyValues, region, settled with
    | [], _, _ => simpa [written,writes,writtenNil] using ready.holds
    | [kv], region, settled =>
      rcases cutTip (region.settled shape settled) with ⟨same,_⟩ | ⟨key,value,same,_⟩ | ⟨l,r,_,_,isStub⟩
      · rw [same]; simp
      · rw [same]; simp
      · rcases writeNodeKind settled with rfl | rfl <;> cases isStub
  framed _ _ := ⟨rfl,rfl⟩

section
variable (hashing : Hashing sha S) {trie : Trie} (length : trie.keyLength = len)
  (tall : trie.subtreeHeight = h) (high : 0 < h) (low : h ≤ 8) {P : Bytes → Prop} {m height : Nat}
  {descend : σ → List KeyValue → SubTree → Except SmtError (σ × SubTree)}
  (descends : 0 < m → Descends sha h len S store P m (height + h) descend)
include hashing length tall high low descends

theorem updateNodeBottom {Q es kvs n s} (part : Part sha h len S store P (h*m) (height+h) 0 s Q es kvs)
    (shape : cut sha 0 (treeOf (h*m) (height+h) es) = tip n) (base : Nat) :
    ∃ s' n', updateNode sha store.toDB trie descend height 0 s [kvs] (lengthBins base [kvs]) base n =
        .ok (s',[n'],[h]) ∧ Outcome sha store h s s' 0 (treeOf (h*m) (height+h) es)
        (treeOf (h*m) (height+h) (written kvs es)) (tip n') := by
  obtain ⟨region,path,inside,inside',ready⟩ := part
  have settled := settledNodeBins 0 0 base kvs n
  simp only [binsOf] at settled
  simp only [updateNode,settled,bind,Except.bind,tall]
  cases hit : settledBy kvs n with
  | some n' => exact ⟨s,n',rfl,outcomeSettled region shape ready hit⟩
  | none =>
    have crowded := region.crowded shape hit
    have pos : 0 < m := Nat.pos_of_mul_pos_left (region.deeper crowded)
    have ne : kvs ≠ [] := by
      rintro rfl
      cases hit
    obtain ⟨s1,bottom,ready',removed⟩ := bottomHeld hashing high low length inside shape ready
      (treeOf (h*m) (height+h) (written kvs es))
    obtain ⟨s',made,entry,held,framed⟩ := descends pos s1 Q es kvs region path (fun _ => crowded) ne inside
      inside' ready'
    have outcome : Outcome sha store h s s' 0 (treeOf (h*m) (height+h) es)
        (treeOf (h*m) (height+h) (written kvs es))
        (tip (shown (cut sha 0 (treeOf (h*m) (height+h) (written kvs es))))) :=
      { plain := fun n mem => cutPlain 0 _ n (by rw [cutZero]; exact mem)
        settled := (cutZero _).symm
        holds := heldEntry high entry held
        framed := fun key free => ⟨(framed key free).1.trans (removed key free).1,(framed key free).2.trans (removed key free).2⟩ }
    simp only [bottom,made]
    refine ⟨s',_,?_,outcome⟩
    rcases storedSingle sha high (treeOf (h * m) (height+h) (written kvs es)) with single | ⟨several,l,r,isNode⟩
    · rw [single]
    split
    · rename_i one
      exact absurd one (several _)
    · rw [storedRoot,isNode]
      rfl

section
variable {j d} (place : d + j = height + h) (small : j ≤ h) {s : σ} {Q : Bytes → Prop} {es keyValues : List KeyValue}
  (part : Part sha h len S store P (h * m + j) d j s Q es keyValues)
include place small part

theorem updateNodeRegion (shape : cut sha j (treeOf (h*m+j) d es) = tip n) (base : Nat) :
    ∃ s' u, updateNode sha store.toDB trie descend height j s (binsOf j d keyValues) (lengthBins base (binsOf j d keyValues)) base n =
        .ok (s',(u.listed (h-j)).map Prod.fst,(u.listed (h-j)).map Prod.snd) ∧
      Outcome sha store h s s' j (treeOf (h*m+j) d es) (treeOf (h*m+j) d (written keyValues es)) u := by
  induction j generalizing d Q es keyValues n s base with
  | zero =>
    obtain rfl : d = height+h := by omega
    obtain ⟨s',n',run,outcome⟩ := updateNodeBottom hashing length tall high low descends part shape base
    exact ⟨s',tip n',run,outcome⟩
  | succ j ih =>
    rw [← add_assoc (h*m) j 1] at part shape ⊢
    obtain ⟨region,path,inside,inside',ready⟩ := part
    have settled := settledNodeBins (j+1) d base keyValues n
    cases hit : settledBy keyValues n with
    | some n' =>
      refine ⟨s,tip n',?_,outcomeSettled region shape ready hit⟩
      simp only [updateNode,settled,hit,bind,Except.bind,tall]
      rfl
    | none =>
      obtain ⟨left,right,halves,leftShape,rightShape,leftTip,rightTip⟩ := region.splitTip shape
      rw [treeHalves] at inside
      rw [treeSplit] at inside'
      have known := joinInside hashing inside
      have known' := joinInside hashing inside'
      have sized := ready.sized
      rw [treeHalves] at sized
      obtain ⟨s1,ul,leftRun,lo⟩ := ih (by omega) (by omega) ⟨region.left,path.split false,known.1,known'.1,
        heldTip leftTip _ _,heldTip leftTip (store.content s) _,sizedJoin.mp sized |>.1⟩ leftShape base
      obtain ⟨s2,ur,rightRun,ro⟩ := ih (by omega) (by omega) ⟨region.right,path.split true,known.2,known'.2,
        heldTip rightTip _ _,heldTip rightTip (store.content s1) _,sizedJoin.mp sized |>.2⟩ rightShape
        (base+(binsOf j (d+1) (keyValues.filter (fun kv => !keyBit kv.1 d))).flatten.length)
      refine ⟨s2,fork ul ur,?_,?_⟩
      · have size := binsLength j (d+1) (keyValues.filter (fun kv => !keyBit kv.1 d))
        obtain ⟨takes,drops,start⟩ := lengthBinsHalf size (Nat.two_pow_pos j) base
          (binsOf j (d+1) (keyValues.filter (fun kv => keyBit kv.1 d)))
        have half : (binsOf (j+1) d keyValues).length/2 = 2^j := by
          rw [binsLength,Nat.pow_succ,Nat.mul_div_cancel _ (by decide)]
        have pos : height+(h-(j+1)) = d := by omega
        have deeper : h-(j+1)+1 = h-j := by omega
        simp only [updateNode,settled,hit,bind,Except.bind,tall,pos,halves,half]
        rw [show binsOf (j+1) d keyValues = _ ++ _ from rfl,take_left' size,drop_left' size,takes,drops,start]
        simp only [leftRun,rightRun]
        rw [LeafTree.listed,deeper,map_append,map_append]
      · rw [treeSplit,treeHalves _ _ es]
        refine outcomeJoin hashing (Q := fun key => keyBit key d = false) inside inside' ?_ ?_ ?_ lo ro
        · exact fun e mem => (region.left.writtenTreeIn e mem).2
        · exact fun e mem => by simp [(region.right.treeIn e mem).2]
        · exact fun e mem => by simp [(region.right.writtenTreeIn e mem).2]

section
variable {bins : List (List KeyValue)} {binOffset : Nat} (room : binOffset + 2 ^ j ≤ bins.length)
  (share : (bins.drop binOffset).take (2 ^ j) = binsOf j d keyValues) (ns : List Node) (hs : List Nat)
include room share

theorem updateNodesTip (shape : cut sha j (treeOf (h*m+j) d es) = tip n) :
    ∃ s' u, updateNodes sha store.toDB trie descend height bins s binOffset (n::ns) ((h-j)::hs) = (do
          let (s2,nodes,struct,offset) ← updateNodes sha store.toDB trie descend height bins s' (binOffset+2^j) ns hs
          .ok (s2,(u.listed (h-j)).map Prod.fst ++ nodes,(u.listed (h-j)).map Prod.snd ++ struct,offset)) ∧
      Outcome sha store h s s' j (treeOf (h*m+j) d es) (treeOf (h*m+j) d (written keyValues es)) u := by
  obtain ⟨s',u,run,outcome⟩ := updateNodeRegion hashing length tall high low descends place small part shape 0
  refine ⟨s',u,?_,outcome⟩
  have levels : h-(h-j) = j := by omega
  simp only [updateNodes,tall,levels]
  rw [if_neg (by omega),share,run]
  rfl

theorem updateNodesRegion : ∃ s' u, updateNodes sha store.toDB trie descend height bins s binOffset
        (((cut sha j (treeOf (h*m+j) d es)).listed (h-j)).map Prod.fst ++ ns)
        (((cut sha j (treeOf (h*m+j) d es)).listed (h-j)).map Prod.snd ++ hs) =
        (do
          let (s2,nodes,struct,offset) ← updateNodes sha store.toDB trie descend height bins s' (binOffset+2^j) ns hs
          .ok (s2,(u.listed (h-j)).map Prod.fst ++ nodes,(u.listed (h-j)).map Prod.snd ++ struct,offset)) ∧
      Outcome sha store h s s' j (treeOf (h*m+j) d es) (treeOf (h*m+j) d (written keyValues es)) u := by
  induction j generalizing d Q es keyValues s binOffset ns hs with
  | zero =>
    rw [cutZero]
    exact updateNodesTip hashing length tall high low descends place small part room share ns hs (cutZero _)
  | succ j ih =>
    rw [← add_assoc (h*m) j 1] at part ⊢
    cases tree : treeOf (h*m+j+1) d es with
    | empty | leaf key value =>
      obtain ⟨s',u,run,outcome⟩ := updateNodesTip hashing length tall high low descends place small part
        room share ns hs (by rw [← add_assoc,tree]; rfl)
      rw [← add_assoc,tree] at outcome
      exact ⟨s',u,run,outcome⟩
    | node l r =>
      obtain ⟨region,path,inside,inside',ready⟩ := part
      obtain ⟨rfl,rfl⟩ := joinNode ((treeHalves _ _ _).symm.trans tree)
      have double : 2^(j+1) = 2^j+2^j := by rw [pow_succ,mul_two]
      have pos := Nat.two_pow_pos j
      have deeper : h-(j+1)+1 = h-j := by omega
      rw [treeHalves] at inside
      rw [treeSplit] at inside'
      have known := joinInside hashing inside
      have known' := joinInside hashing inside'
      obtain ⟨leftShare,rightShare⟩ := binsShare share
      rw [tree] at ready
      have sized := forall_mem_append.mp ready.sized
      obtain ⟨s1,ul,leftRun,lo⟩ := ih (by omega) (by omega)
        ⟨region.left,path.split false,known.1,known'.1,ready.reads.1,ready.holds.1,sized.1⟩ (by omega) leftShare
        (((cut sha j (treeOf (h*m+j) (d+1) (es.filter (fun e => keyBit e.1 d)))).listed (h-j)).map Prod.fst ++ ns)
        (((cut sha j (treeOf (h*m+j) (d+1) (es.filter (fun e => keyBit e.1 d)))).listed (h-j)).map Prod.snd ++ hs)
      have readyRight := readyAfter hashing (Q := fun key => keyBit key d = false) known.1 known'.1 known.2
          (fun e mem => (region.left.treeIn e mem).2) (fun e mem => (region.left.writtenTreeIn e mem).2)
          (fun e mem => by simp [(region.right.treeIn e mem).2]) lo.framed ⟨ready.reads.2,ready.holds.2,sized.2⟩
      obtain ⟨s2,ur,rightRun,ro⟩ := ih (by omega) (by omega) ⟨region.right,path.split true,known.2,known'.2,readyRight⟩
        (by omega) rightShare ns hs
      refine ⟨s2,fork ul ur,?_,?_⟩
      · simp only [cut,LeafTree.listed,deeper,map_append,append_assoc]
        rw [leftRun,rightRun,double,← add_assoc]
        cases updateNodes sha store.toDB trie descend height bins s2 (binOffset+2^j+2^j) ns hs with
        | error e => rfl
        | ok res => simp [bind,Except.bind]
      · rw [treeSplit,← tree,treeHalves _ _ es]
        refine outcomeJoin hashing (Q := fun key => keyBit key d = false) inside inside' ?_ ?_ ?_ lo ro
        · exact fun e mem => (region.left.writtenTreeIn e mem).2
        · exact fun e mem => by simp [(region.right.treeIn e mem).2]
        · exact fun e mem => by simp [(region.right.writtenTreeIn e mem).2]

end

end

end

section
variable (hashing : Hashing sha S) {trie : Trie} (length : trie.keyLength = len)
  (tall : trie.subtreeHeight = h) (high : 0 < h) (low : h ≤ 8) {P : Bytes → Prop} (binned : Binned trie P)
include hashing length tall high low binned

theorem updateSubtreeDescends {m fuel} (pos : 0 < m) (enough : m ≤ fuel) (b : Nat) :
    Descends sha h len S store P m (h*b) (updateSubtree sha store.toDB trie fuel (h*b)) := by
  induction m generalizing fuel b with
  | zero => omega
  | succ m ih =>
    obtain ⟨fuel,rfl⟩ : ∃ f, fuel = f+1 := ⟨fuel - 1,by omega⟩
    intro s Q es kvs region path crowded ne inside inside' ready
    have below : 0 < m → Descends sha h len S store P m (h*b+h) (updateSubtree sha store.toDB trie fuel (h*b+h)) := by
      intro more
      exact ih more (by omega) (b+1)
    rw [Nat.mul_succ] at region inside inside' ready ⊢
    have bins : fillBins trie (h*b) kvs = .ok (binsOf h (h*b) kvs) := by
      have bottom := region.bottom
      have fill := binned b Q kvs
      rw [tall] at fill
      refine fill path (fun more => crowded (Nat.mul_pos high more)) (fun kv mem => ?_)
      have size := region.sized kv.1 (region.writesIn kv mem)
      exact ⟨region.writesIn kv mem,by omega⟩
    have size := binsLength h (h*b) kvs
    have share : ((binsOf h (h*b) kvs).drop 0).take (2^h) = binsOf h (h*b) kvs :=
      take_of_length_le (by rw [drop_zero]; omega)
    obtain ⟨s1,u,run,outcome⟩ := updateNodesRegion hashing length tall high low below (j := h) rfl (le_refl _)
      ⟨region,path,inside,inside',ready⟩ (by omega) share [] []
    have walked : updateNodes sha store.toDB trie (updateSubtree sha store.toDB trie fuel (h*b+h)) (h*b)
        (binsOf h (h*b) kvs) s 0 (stored sha h (treeOf (h*m+h) (h*b) es)).nodes
        (stored sha h (treeOf (h*m+h) (h*b) es)).struct =
        .ok (s1,(u.listed 0).map Prod.fst,(u.listed 0).map Prod.snd,2^h) := by
      simpa [updateNodes,bind,Except.bind,stored,subTreeOf] using run
    have made : calculateSubTree sha _ _ _ [] = _ := calculateSettled outcome.plain
    rw [outcome.settled] at made
    obtain ⟨first,more,rfl⟩ := exists_cons_of_ne_nil ne
    refine ⟨store.set s1 (treeRoot sha (treeOf (h*m+h) (h*b) (written (first::more) es)))
      (stored sha h (treeOf (h*m+h) (h*b) (written (first::more) es))).encode,?_,?_,?_,?_⟩
    · simp only [updateSubtree,bins,bind,Except.bind,tall,walked,Trie.maxNumberOfNodes,ne_eq,not_true,if_false,made]
      rw [← storedRoot]
      rfl
    · rw [store.contentSet,if_pos rfl]
    · refine heldBelow hashing high inside' (fun key differs => ?_) outcome.holds
      rw [store.contentSet,if_neg differs]
    · intro key free
      have differs : key ≠ treeRoot sha (treeOf (h*m+h) (h*b) (written (first::more) es)) :=
        fun same => free (.inr ⟨_,Or.inr (selfSubtree _),same.symm⟩)
      rw [store.contentSet,if_neg differs]
      exact ⟨(outcome.framed key free).1,(store.getSet _ _ _ _ differs).trans (outcome.framed key free).2⟩

end

structure Shape (h keyLength : Nat) (P : Bytes → Prop) : Prop where
  whole : ∃ levels, 8 * keyLength = h * levels
  high : 4 ≤ h
  low : h ≤ 8
  sized : ∀ key, P key → key.length = keyLength
  binned : ∀ t : Trie, t.subtreeHeight = h → Binned t P

theorem shapeEight (len : Nat) : Shape 8 len (·.length = len) :=
  ⟨⟨len,rfl⟩,by decide,by decide,fun _ same => same,fun _ eight => binnedEight eight _⟩

theorem shapeFour (len : Nat) (clear : LowClear P) : Shape 4 len (fun key => key.length = len ∧ P key) :=
  ⟨⟨2*len,by omega⟩,by decide,by decide,fun _ inside => inside.1,
    fun _ four => binnedFour four (fun a c inside inside' => clear a c inside.2 inside'.2)⟩

theorem Region.whole {es} (sized : ∀ key, P key → key.length = len) (entriesIn : ∀ e ∈ es, P e.1)
    (entriesDistinct : (es.map Prod.fst).Nodup) (writesIn : ∀ kv ∈ keyValues, P kv.1)
    (writesDistinct : (keyValues.map Prod.fst).Nodup) : Region len (8*len) 0 P es keyValues where
  separated k k' inside inside' := keySeparated len k k' (sized k inside) (sized k' inside')
  sized := sized
  bottom := by omega
  entriesIn := entriesIn
  entriesDistinct := entriesDistinct
  writesIn := writesIn
  writesDistinct := writesDistinct

theorem uniqueKeysDistinct (nodup : (keyValues.map Prod.fst).Nodup) (fresh : ∀ kv ∈ keyValues, kv.1 ∉ seen) :
    uniqueKeys seen keyValues = keyValues := by
  induction keyValues generalizing seen with
  | nil => rfl
  | cons kv rest ih =>
    rw [map_cons,nodup_cons] at nodup
    rw [uniqueKeys,if_neg (fresh kv (.head _))]
    refine congrArg _ (ih nodup.2 (fun kv' mem => ?_))
    rw [mem_cons,not_or]
    exact ⟨fun same => nodup.1 (same ▸ mem_map_of_mem mem),fresh kv' (.tail _ mem)⟩

theorem uniqueKeysSublist (seen : List Bytes) (kvs : List KeyValue) : List.Sublist (uniqueKeys seen kvs) kvs := by
  induction kvs generalizing seen with
  | nil => exact List.Sublist.refl _
  | cons kv rest ih =>
    rw [uniqueKeys]
    split
    · exact (ih seen).cons _
    · exact (ih _).cons_cons _

theorem uniqueKeysNodup (seen : List Bytes) (kvs : List KeyValue) :
    ((uniqueKeys seen kvs).map Prod.fst).Nodup ∧ ∀ kv ∈ uniqueKeys seen kvs, kv.1 ∉ seen := by
  induction kvs generalizing seen with
  | nil => exact ⟨nodup_nil,by simp [uniqueKeys]⟩
  | cons kv rest ih =>
    rw [uniqueKeys]
    split
    · exact ih seen
    rename_i fresh
    obtain ⟨nodup,apart⟩ := ih (kv.1::seen)
    refine ⟨nodup_cons.mpr ⟨fun inside => ?_,nodup⟩,forall_mem_cons.mpr ⟨fresh,fun kv' mem old => ?_⟩⟩
    · obtain ⟨kv',mem,same⟩ := mem_map.mp inside
      exact apart kv' mem (by rw [same]; exact .head _)
    · exact apart kv' mem (.tail _ old)

theorem zipColumns (kvs : List KeyValue) : (kvs.map Prod.fst).zip (kvs.map Prod.snd) = kvs := by
  rw [← unzip_fst,← unzip_snd,zip_unzip]

theorem updateUnique (db : DB σ) (t : Trie) (s : σ) (call : List KeyValue) :
    t.update sha db s (call.map Prod.fst) (call.map Prod.snd) =
      t.update sha db s ((uniqueKeys [] call).map Prod.fst) ((uniqueKeys [] call).map Prod.snd) := by
  have again : uniqueKeys [] (uniqueKeys [] call) = uniqueKeys [] call := uniqueKeysDistinct (uniqueKeysNodup [] call).1 (by simp)
  cases call with
  | nil => rfl
  | cons kv rest =>
    have filled : uniqueKeys [] (kv::rest) ≠ [] := by simp [uniqueKeys]
    unfold Trie.update
    rw [zipColumns,zipColumns,again,if_neg (by simp),if_neg (by simp),if_neg (by simp),if_neg (by simpa using filled)]

theorem fuelEnough (ne : keyValues ≠ []) (sized : ∀ kv ∈ keyValues, kv.1.length = len) : 2*len ≤ fuelFor keyValues := by
  obtain ⟨kv,mem⟩ := exists_mem_of_ne_nil _ ne
  have largest := ((foldMaxLe _ 0 _).mp (le_refl (maxOf (keyValues.map (·.1.length))))).2 kv.1.length
    (mem_map_of_mem mem)
  rw [sized kv mem] at largest
  unfold fuelFor
  omega

section
variable (sha)

structure Keeps (h : Nat) (read : Bytes → Option Bytes) (t : Tree) : Prop where
  entry : t ≠ .empty → read (treeRoot sha t) = some (stored sha h t).encode
  below : Held sha h read h t

end

variable (store) in
theorem updateWritten (hashing : Hashing sha S) {trie : Trie} (length : trie.keyLength = len)
    (tall : trie.subtreeHeight = h) {P} (shape : Shape h len P) (pos : 0 < len) {es kvs}
    (region : Region len (8*len) 0 P es kvs)
    (ne : kvs ≠ []) (inside : S (treeOf (8*len) 0 es))
    (inside' : S (treeOf (8*len) 0 (written kvs es)))
    (sized : SizedTree sha len (treeOf (8*len) 0 es))
    (root : trie.root = treeRoot sha (treeOf (8*len) 0 es)) {s}
    (reads : Keeps sha h (store.get s) (treeOf (8*len) 0 es))
    (holds : Held sha h (store.content s) h (treeOf (8*len) 0 es)) :
    ∃ s', trie.update sha store.toDB s (kvs.map Prod.fst) (kvs.map Prod.snd) =
        .ok (s',{trie with root := treeRoot sha (treeOf (8*len) 0 (written kvs es))}) ∧
      Keeps sha h (store.content s') (treeOf (8*len) 0 (written kvs es)) := by
  have unique : uniqueKeys [] (kvs.map Prod.fst |>.zip (kvs.map Prod.snd)) = kvs := by
    rw [zipColumns]
    exact uniqueKeysDistinct region.writesDistinct (by simp)
  obtain ⟨⟨levels,whole⟩,high,low,_,binned⟩ := shape
  have hit := getSubtreeHeld hashing low length inside sized reads.entry
  have enough := fuelEnough ne (fun kv mem => region.sized kv.1 (region.writesIn kv mem))
  have path : Path P 0 P := ⟨fun _ inside => inside,fun _ _ _ _ i below => absurd below (Nat.not_lt_zero i)⟩
  have fewer : 4*levels ≤ h*levels := Nat.mul_le_mul_right _ high
  have positive : 0 < levels := Nat.pos_of_mul_pos_left (whole ▸ (by omega : 0 < 8*len))
  have descends : Descends sha h len S store P levels (h*0) (updateSubtree sha store.toDB trie (fuelFor kvs) (h*0)) :=
    updateSubtreeDescends hashing length tall (by omega) low (binned trie tall) positive (by omega) 0
  rw [mul_zero,Descends,← whole] at descends
  obtain ⟨s',run,entry,held,_⟩ := descends s P es kvs region path (by simp) ne inside inside'
    ⟨reads.below,holds,sized⟩
  refine ⟨s',?_,fun _ => entry,held⟩
  unfold Trie.update
  rw [if_neg (by simp),if_neg (by simpa using ne)]
  simp only [unique,root,hit,bind,Except.bind]
  rw [run]
  simp [storedRoot]

end LiskEngine.Smt
