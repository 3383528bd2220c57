import LiskEngine.DiffdbViews

/-! Databases hold their caches by reference. A view made by WithPrefix writes to the
cache of its origin, a snapshot is a new cache with the same content, and a restored
snapshot becomes the cache of that database alone: views made before keep the old one. -/
namespace LiskEngine.Diffdb
open List OrderedMap Database

/-- Without an upper bound the iterator runs to the last key, and every key from there on starts with `start`. -/
def iteratePrefix (store : OrderedMap Bytes Bytes) (start : Bytes) (limit : Int) (reverse : Bool) : List (Bytes × Bytes) :=
  let found := store.entries.filter (fun e => start.isPrefixOf e.1)
  let found := if reverse then found.reverse else found
  if limit = -1 then found else found.take (max 1 limit.toNat)

def CacheDB.withPrefix (c : CacheDB Bytes Bytes) (start : Bytes) : List (Bytes × Bytes) :=
  (c.entries.filter (fun e => !e.2.deleted && start.isPrefixOf e.1)).map (fun e => (e.1, e.2.value))

/-- The cached keys are compared with the key without the prefix of the view; one that is shorter than
that prefix cannot be cut, and the source panics. -/
def View.iterate (view : View) (db : Database Bytes Bytes) (start : Bytes) (limit : Int) (reverse : Bool) :
    Option (List (Bytes × Bytes) × Database Bytes Bytes) :=
  let (stored, cache) := Database.collectStored (iteratePrefix db.store (view.getKey start) limit reverse) ([], db.cache)
  let cached := cache.withPrefix start
  if cached.any (fun e => e.1.length < view.keyPrefix.length) then none
  else some (Database.mergeSortLimit (cached.map view.strip) (stored.map view.strip) reverse limit, {db with cache := cache})

theorem appendLtIff (start a b : Bytes) : start ++ a < start ++ b ↔ a < b := by
  refine ⟨fun smaller => ?_,fun smaller => append_left_lt smaller⟩
  rcases lt_trichotomy a b with first | same | last
  · exact first
  · exact absurd smaller (same ▸ lt_irrefl _)
  · exact absurd smaller (lt_asymm (append_left_lt last))

theorem memWithPrefix {c : CacheDB Bytes Bytes} {start k v} : (k,v) ∈ c.withPrefix start ↔
    start <+: k ∧ ∃ entry, OrderedMap.get c k = some entry ∧ entry.deleted = false ∧ entry.value = v := by
  simp only [CacheDB.withPrefix,mem_map,mem_filter,Prod.exists]
  constructor
  · rintro ⟨_,entry,⟨mem,live⟩,eq⟩
    cases eq
    simp only [Bool.and_eq_true,Bool.not_eq_true', isPrefixOf_iff_prefix] at live
    exact ⟨live.2,entry,(memIffGet _ _ _).mp mem,live.1,rfl⟩
  · rintro ⟨begins,entry,held,live,rfl⟩
    exact ⟨k,entry,⟨(memIffGet _ _ _).mpr held,by simp [live,begins]⟩,rfl⟩

/-- A list in the requested direction. -/
def inOrder (entries : List α) (reverse : Bool) : List α := if reverse then entries.reverse else entries

@[simp] theorem memInOrder {entries : List α} {reverse e} : e ∈ inOrder entries reverse ↔ e ∈ entries := by
  cases reverse <;> simp [inOrder]

/-- The first entries in the requested direction; a negative limit is none. -/
def listed (entries : List α) (limit : Int) (reverse : Bool) : List α :=
  if limit < 0 then inOrder entries reverse else (inOrder entries reverse).take limit.toNat

theorem memListed {entries : List α} {limit reverse e} (mem : e ∈ listed entries limit reverse) : e ∈ entries := by
  unfold listed at mem
  split at mem
  · exact memInOrder.mp mem
  · exact memInOrder.mp (mem_of_mem_take mem)

theorem listedCut (entries : List α) (limit : Int) (reverse : Bool) :
    (if limit > -1 ∧ limit < (inOrder entries reverse).length then (inOrder entries reverse).take limit.toNat
      else inOrder entries reverse) = listed entries limit reverse := by
  unfold listed
  by_cases negative : limit < 0
  · rw [if_neg (by omega),if_pos negative]
  · rw [if_neg negative]
    split
    · rfl
    · exact (take_of_length_le (by omega)).symm

section
variable (view : View) {cached stored : List (Bytes × Bytes)} (sorted : cached.Pairwise (fun a b => a.1 < b.1))
  (begins : ∀ e ∈ cached, view.keyPrefix <+: e.1)
include sorted begins

theorem View.strippedSorted : (cached.map view.strip).Pairwise (fun a b => a.1 < b.1) := by
  rw [pairwise_map]
  refine sorted.imp_of_mem (fun {a b} first second less => ?_)
  obtain ⟨key,same⟩ := begins a first
  obtain ⟨key',same'⟩ := begins b second
  rw [← same,← same',appendLtIff] at less
  simpa [View.strip,← same,← same'] using less

theorem View.mergeStripped (covered : ∀ e ∈ stored, e.1 ∈ cached.map Prod.fst) (rev : Bool) (limit : Int) :
    mergeSortLimit (cached.map view.strip) (stored.map view.strip) rev limit =
      listed (cached.map view.strip) limit rev := by
  refine (mergeSortLimitCached rev limit (view.strippedSorted sorted begins) (fun e among => ?_)).trans (listedCut _ _ _)
  obtain ⟨data,mem,rfl⟩ := mem_map.mp among
  obtain ⟨own,inside,same⟩ := mem_map.mp (covered data mem)
  rw [map_map]
  exact mem_map.mpr ⟨own,inside,by simp [View.strip,same]⟩

end

theorem View.getKeyStrip {view : View} {e : Bytes × Bytes} (begins : view.keyPrefix <+: e.1) :
    (view.getKey (view.strip e).1,(view.strip e).2) = e := by
  obtain ⟨rest,same⟩ := begins
  exact Prod.ext (by simp [strip,getKey,← same]) rfl

theorem View.memStripped {view : View} {es : List (Bytes × Bytes)} (begins : ∀ e ∈ es, view.keyPrefix <+: e.1) {k v} :
    (k,v) ∈ es.map view.strip ↔ (view.getKey k,v) ∈ es := by
  refine ⟨fun mem => ?_,fun mem => mem_map.mpr ⟨_,mem,by simp [strip,getKey]⟩⟩
  obtain ⟨e,inside,same⟩ := mem_map.mp mem
  have whole := getKeyStrip (begins e inside)
  rw [same] at whole
  exact whole ▸ inside

section
variable {view : View} {db : Database Bytes Bytes} {start : Bytes} {rev : Bool}

theorem memIteratePrefix {store : OrderedMap Bytes Bytes} {k v} :
    (k,v) ∈ iteratePrefix store start (-1) rev ↔ store.get k = some v ∧ start <+: k := by
  cases rev <;> simp [iteratePrefix,memIffGet]

theorem iteratePrefixHeld {store : OrderedMap Bytes Bytes} {limit e} (mem : e ∈ iteratePrefix store start limit rev) :
    store.get e.1 = some e.2 := by
  have among := memLimited mem
  rw [← memIffGet]
  cases rev with
  | false => exact (mem_filter.mp among).1
  | true => exact (mem_filter.mp (mem_reverse.mp among)).1

theorem iteratePrefixDistinct (store : OrderedMap Bytes Bytes) :
    (iteratePrefix store start (-1) rev).Pairwise (fun a b => a.1 ≠ b.1) := by
  have sorted := (store.sorted.filter (fun e => start.isPrefixOf e.1)).imp (fun smaller => ne_of_lt smaller)
  cases rev with
  | false => simpa [iteratePrefix] using sorted
  | true => simpa [iteratePrefix,pairwise_reverse,ne_comm] using sorted

theorem memCachedPrefix (db : Database Bytes Bytes) (start base : Bytes) (rev : Bool) {k v} :
    (k,v) ∈ (collectStored (iteratePrefix db.store base (-1) rev) ([],db.cache)).2.withPrefix start ↔
      start <+: k ∧ db.view k = some v ∧ (OrderedMap.get db.cache k ≠ none ∨ base <+: k) := by
  rw [memWithPrefix,collectedEntry (fun e mem => iteratePrefixHeld mem)]
  refine and_congr_right (fun _ => and_congr_right (fun seen => or_congr_right' (fun fresh => ?_)))
  have stored : db.store.get k = some v := by simpa [Database.view,not_not.mp fresh] using seen
  simp [memIteratePrefix,stored]

theorem memStoredPrefix (db : Database Bytes Bytes) (base : Bytes) (rev : Bool) {k v} :
    (k,v) ∈ (collectStored (iteratePrefix db.store base (-1) rev) ([],db.cache)).1 ↔
      base <+: k ∧ db.store.get k ≠ none ∧ ∃ w, db.view k = some w ∧ v = if OrderedMap.get db.cache k = none then [] else w := by
  rw [collectStoredList (iteratePrefixDistinct _),nil_append,mem_filterMap]
  constructor
  · rintro ⟨⟨k',w⟩,met,row⟩
    obtain ⟨stored,begins⟩ := memIteratePrefix.mp met
    cases hit : OrderedMap.get db.cache k' with
    | none =>
      simp only [storedValue,CacheDB.get,hit,Option.some.injEq,Prod.mk.injEq] at row
      obtain ⟨rfl,rfl⟩ := row
      exact ⟨begins,by simp [stored],w,by simp [Database.view,hit,stored],by rw [if_pos hit]; rfl⟩
    | some c =>
      cases gone : c.deleted <;> simp [storedValue,CacheDB.get,hit,gone] at row
      obtain ⟨rfl,rfl⟩ := row
      exact ⟨begins,by simp [stored],c.value,by simp [Database.view,hit,gone],by simp [hit]⟩
  · rintro ⟨begins,stored,w,seen,rfl⟩
    obtain ⟨w',stored⟩ := Option.ne_none_iff_exists'.mp stored
    refine ⟨(k,w'),memIteratePrefix.mpr ⟨stored,begins⟩,?_⟩
    cases hit : OrderedMap.get db.cache k with
    | none =>
      simp only [storedValue,CacheDB.get,hit,if_true]
      rfl
    | some c => cases gone : c.deleted <;> simp_all [storedValue,CacheDB.get,Database.view]

theorem storedPrefixDistinct (db : Database Bytes Bytes) (base : Bytes) (rev : Bool) :
    (collectStored (iteratePrefix db.store base (-1) rev) ([],db.cache)).1.Pairwise (fun a b => a.1 ≠ b.1) := by
  have key {e row : Bytes × Bytes} (listed : storedValue db.cache e = some row) : row.1 = e.1 := by
    unfold storedValue at listed
    split at listed <;> cases listed <;> rfl
  rw [collectStoredList (iteratePrefixDistinct _),nil_append,pairwise_filterMap]
  refine (iteratePrefixDistinct _).imp (fun other row listed row' listed' => ?_)
  rw [key listed,key listed']
  exact other

section
variable {es : List (Bytes × Bytes)} (sorted : es.Pairwise (fun a b => a.1 < b.1))
  (mems : ∀ k v, (k,v) ∈ es ↔ view.getKey start <+: k ∧ db.view k = some v)
include sorted mems

omit sorted in
theorem View.iterateMembers (rev : Bool) (foreign : ∀ k v, OrderedMap.get db.cache k ≠ none → db.view k = some v → start <+: k → view.getKey start <+: k)
    (found : ∀ e ∈ es, start <+: e.1 ∨ db.store.get e.1 ≠ none ∧ (OrderedMap.get db.cache e.1 ≠ none ∨ e.2 = [])) (k v) :
    let result := collectStored (iteratePrefix db.store (view.getKey start) (-1) rev) ([],db.cache)
    ((k,v) ∈ result.2.withPrefix start ∨ (k,v) ∈ result.1 ∧ ¬∃ w, (k,w) ∈ result.2.withPrefix start) ↔ (k,v) ∈ es := by
  simp only [memCachedPrefix,memStoredPrefix,mems]
  constructor
  · rintro (⟨begins,seen,cached | own⟩ | ⟨⟨under,_,w,seen,rfl⟩,fresh⟩)
    · exact ⟨foreign _ _ cached seen begins,seen⟩
    · exact ⟨own,seen⟩
    · refine ⟨under,seen.trans (congrArg some ?_)⟩
      rcases found _ ((mems _ w).mpr ⟨under,seen⟩) with begins | ⟨_,cached | empty⟩
      · exact absurd ⟨w,begins,seen,.inr under⟩ fresh
      · rw [if_neg cached]
      · rw [show w = [] from empty,ite_self]
  · rintro ⟨under,seen⟩
    by_cases begins : start <+: k
    · exact .inl ⟨begins,seen,.inr under⟩
    obtain ⟨stored,value⟩ := (found _ ((mems _ _).mpr ⟨under,seen⟩)).resolve_left begins
    refine .inr ⟨⟨under,stored,v,seen,?_⟩,fun ⟨w,listed⟩ => begins listed.1⟩
    rcases value with cached | empty
    · rw [if_neg cached]
    · rw [show v = [] from empty,ite_self]

/-- An iteration is right where the cached keys that start with the given one are those of the view and the entries of
the view that do not start with it are stored, and were cached or are empty. -/
theorem View.iterateRight (foreign : ∀ k v, OrderedMap.get db.cache k ≠ none → db.view k = some v → start <+: k → view.getKey start <+: k)
    (found : ∀ e ∈ es, start <+: e.1 ∨ db.store.get e.1 ≠ none ∧ (OrderedMap.get db.cache e.1 ≠ none ∨ e.2 = [])) :
    (view.iterate db start (-1) rev).map Prod.fst = some (listed (es.map view.strip) (-1) rev) := by
  have members := iterateMembers mems rev foreign found
  have inStored {k v} := @memStoredPrefix db (view.getKey start) rev k v
  have distinct := storedPrefixDistinct db (view.getKey start) rev
  simp only [View.iterate]
  generalize collectStored (iteratePrefix db.store (view.getKey start) (-1) rev) ([],db.cache) = result at *
  have inside {k} (own : view.getKey start <+: k) : view.keyPrefix <+: k := (prefix_append _ _).trans own
  have esBegins : ∀ e ∈ es, view.keyPrefix <+: e.1 := fun e mem => inside ((mems _ _).mp mem).1
  have cachedBegins : ∀ e ∈ result.2.withPrefix start, view.keyPrefix <+: e.1 := fun e mem => esBegins e ((members _ _).mp (.inl mem))
  have storedBegins : ∀ e ∈ result.1, view.keyPrefix <+: e.1 := fun e mem => inside (inStored.mp mem).1
  have long : (result.2.withPrefix start).any (·.1.length < view.keyPrefix.length) = false := by
    rw [any_eq_false]
    intro e mem
    simpa using (cachedBegins e mem).length_le
  have ascending : (result.2.withPrefix start).Pairwise (fun a b => a.1 < b.1) := by
    rw [CacheDB.withPrefix,pairwise_map]
    exact result.2.sorted.filter _
  rw [long]
  refine congrArg some ((mergeSortLimitPerm rev (-1) (view.strippedSorted sorted esBegins) ?_).trans (listedCut _ _ _))
  have storedNodup : (result.1.map view.strip).Nodup :=
    Nodup.map_on (fun a first b second same => by
      rw [← getKeyStrip (storedBegins a first),same,getKeyStrip (storedBegins b second)])
      (distinct.imp (fun other same => other (congrArg Prod.fst same)))
  refine (perm_ext_iff_of_nodup ((ascendingNodup (view.strippedSorted ascending cachedBegins)).append (storedNodup.filter _) ?_)
    (ascendingNodup (view.strippedSorted sorted esBegins))).mpr ?_
  · intro e cached stored
    simp only [mem_filter,decide_eq_true_eq] at stored
    exact stored.2 (mem_map_of_mem cached)
  rintro ⟨k,v⟩
  have keyed : k ∈ ((result.2.withPrefix start).map view.strip).map Prod.fst ↔ ∃ w, (view.getKey k,w) ∈ result.2.withPrefix start := by
    simp only [mem_map (f := Prod.fst),Prod.exists,exists_and_right,exists_eq_right,memStripped cachedBegins]
  simp only [mem_append,mem_filter,decide_eq_true_eq,keyed,memStripped cachedBegins,memStripped storedBegins,memStripped esBegins]
  exact members _ _

omit sorted in
theorem View.iterateConverse (apart : ∀ k v, OrderedMap.get db.cache k ≠ none → db.view k = some v → start <+: k →
      view.strip (k,v) ∈ es.map view.strip → view.getKey start <+: k)
    (right : (view.iterate db start (-1) rev).map Prod.fst = some (listed (es.map view.strip) (-1) rev)) :
    (∀ k v, OrderedMap.get db.cache k ≠ none → db.view k = some v → start <+: k → view.getKey start <+: k) ∧
    ∀ e ∈ es, start <+: e.1 ∨ db.store.get e.1 ≠ none ∧ (OrderedMap.get db.cache e.1 ≠ none ∨ e.2 = []) := by
  have inCached {k v} := @memCachedPrefix db start (view.getKey start) rev k v
  have inStored {k v} := @memStoredPrefix db (view.getKey start) rev k v
  simp only [View.iterate] at right
  generalize collectStored (iteratePrefix db.store (view.getKey start) (-1) rev) ([],db.cache) = result at *
  split at right
  · cases right
  have same {e} : e ∈ _ ↔ e ∈ listed (es.map view.strip) (-1) rev := iff_of_eq (congrArg (e ∈ ·) (Option.some.inj right))
  have all {e} : e ∈ listed (es.map view.strip) (-1) rev ↔ e ∈ es.map view.strip := memInOrder
  have inside {k} (own : view.getKey start <+: k) : view.keyPrefix <+: k := (prefix_append _ _).trans own
  have foreign : ∀ k v, OrderedMap.get db.cache k ≠ none → db.view k = some v → start <+: k → view.getKey start <+: k :=
    fun k v cached seen begins => apart k v cached seen begins
      (all.mp (same.mp (memMergeSort.mpr (.inl (mem_map_of_mem (inCached.mpr ⟨begins,seen,.inl cached⟩))))))
  refine ⟨foreign,fun e mem => ?_⟩
  have own := inside ((mems _ _).mp mem).1
  rcases memMergeSort.mp (same.mpr (all.mpr (mem_map_of_mem mem))) with listed | ⟨listed,_⟩
  · obtain ⟨e',listed,eq⟩ := mem_map.mp listed
    obtain ⟨begins,seen,under⟩ := inCached.mp listed
    have own' := inside (under.elim (fun cached => foreign _ _ cached seen begins) id)
    have key := getKeyStrip own'
    rw [eq,getKeyStrip own] at key
    exact .inl (key ▸ begins)
  · obtain ⟨e',listed,eq⟩ := mem_map.mp listed
    obtain ⟨under,stored,w,_,value⟩ := inStored.mp listed
    have key := getKeyStrip (inside under)
    rw [eq,getKeyStrip own] at key
    subst key
    refine .inr ⟨stored,(em (OrderedMap.get db.cache e.1 = none)).symm.imp id (fun fresh => ?_)⟩
    rw [value,if_pos fresh]

end
end

theorem View.iterateNew (view : View) (store : OrderedMap Bytes Bytes) : (view.iterate (new store) [] (-1) false).map Prod.fst =
      some ((store.entries.filter (fun e => view.keyPrefix.isPrefixOf e.1)).map view.strip) := by
  refine iterateRight (store.sorted.filter _) (fun k v => ?_) (fun _ _ cached => absurd rfl cached) (fun _ _ => .inl nil_prefix)
  rw [mem_filter,memIffGet, isPrefixOf_iff_prefix,getKey,append_nil,and_comm]
  rfl

inductive Reply where
  | store (view : Nat)
  | value (found : Option Bytes)
  | has (found : Bool)
  | entries (found : List (Bytes × Bytes))
  | snapshot (id : Int)
  | missing (id : Int)
  | done
  deriving DecidableEq, Repr

inductive StoreCall where
  | run (operation : Operation)
  | iterate (start : Bytes) (limit : Int) (reverse : Bool)
  deriving DecidableEq, Repr

def View.answer (view : View) (db : Database Bytes Bytes) : StoreCall → Option (Reply × Database Bytes Bytes)
  | .run (.get key) => some (.value (view.get db key).1, (view.get db key).2)
  | .run (.has key) => some (.has (view.has db key).1, (view.has db key).2)
  | .run (.set key value) => some (.done, view.set db key value)
  | .run (.del key) => some (.done, view.del db key)
  | .run (.range start stop limit reverse) =>
    some (.entries (view.range db start stop limit reverse).1, (view.range db start stop limit reverse).2)
  | .iterate start limit reverse => (view.iterate db start limit reverse).map (fun found => (.entries found.1, found.2))

/-- A database of the source: `cache` and the snapshots are references. -/
structure Handle where
  keyPrefix : Bytes
  cache : Nat
  snapshots : List (Int × Nat)
  snapshotCount : Int
  deriving DecidableEq, Repr

namespace Handle

def view (h : Handle) : View := ⟨h.keyPrefix⟩

def references (h : Handle) : List Nat := h.cache :: h.snapshots.map Prod.snd

def withPrefix (h : Handle) (more : Bytes) : Handle := ⟨h.keyPrefix ++ more,h.cache,[],0⟩

def deleteSnapshot (h : Handle) (id : Int) : Handle := {h with snapshots := h.snapshots.filter (fun s => s.1 ≠ id)}

/-- The copy of the cache is at `copied`. -/
def snapshot (h : Handle) (copied : Nat) : Handle :=
  {h with
    snapshots := (h.snapshotCount, copied) :: (h.deleteSnapshot h.snapshotCount).snapshots
    snapshotCount := h.snapshotCount + 1}

def restoreSnapshot (h : Handle) (id : Int) : Option Handle :=
  (h.snapshots.lookup id).map (fun cache => {h.deleteSnapshot id with cache := cache})

theorem deletedReferences (h : Handle) (id : Int) : ∀ a ∈ (h.deleteSnapshot id).references, a ∈ h.references := by
  intro a listed
  simp only [references,deleteSnapshot,mem_cons,mem_map,mem_filter] at listed ⊢
  rcases listed with same | ⟨s,⟨mem,_⟩,rfl⟩
  · exact .inl same
  · exact .inr ⟨s,mem,rfl⟩

theorem snapshotReferences (h : Handle) (copied : Nat) : ∀ a ∈ (h.snapshot copied).references, a ∈ h.references ∨ a = copied := by
  intro a listed
  rcases mem_cons.mp listed with rfl | listed
  · exact .inl (.head _)
  · rcases mem_cons.mp listed with rfl | old
    · exact .inr rfl
    · exact .inl (h.deletedReferences _ a (.tail _ old))

theorem restoreTaken (h : Handle) (copied : Nat) :
    ∃ h', (h.snapshot copied).restoreSnapshot h.snapshotCount = some h' ∧ h'.keyPrefix = h.keyPrefix ∧ h'.cache = copied := by
  refine ⟨{(h.snapshot copied).deleteSnapshot h.snapshotCount with cache := copied},?_,rfl,rfl⟩
  rw [restoreSnapshot,show (h.snapshot copied).snapshots.lookup h.snapshotCount = some copied from lookup_cons_self]
  rfl

theorem restoredReferences {h h' : Handle} {id} (restored : h.restoreSnapshot id = some h') :
    ∀ a ∈ h'.references, a ∈ h.references := by
  obtain ⟨cache,hit,rfl⟩ := Option.map_eq_some_iff.mp restored
  obtain ⟨before,after,split,_⟩ := lookup_eq_some_iff.mp hit
  intro a listed
  rcases mem_cons.mp listed with rfl | old
  · exact .tail _ (mem_map.mpr ⟨(id,_),by simp [split],rfl⟩)
  · exact h.deletedReferences id a (.tail _ old)

end Handle

/-- All databases over one store, and their caches. The first database is the one the others are made from. -/
structure Memory where
  store : OrderedMap Bytes Bytes
  caches : List (CacheDB Bytes Bytes)
  handles : List Handle
  allocated : ∀ h ∈ handles, ∀ a ∈ h.references, a < caches.length

namespace Memory

def new (store : OrderedMap Bytes Bytes) (start : Bytes) : Memory where
  store := store
  caches := [OrderedMap.empty]
  handles := [⟨start,0,[],0⟩]
  allocated := by
    intro h member a listed
    rw [List.mem_singleton.mp member] at listed
    simpa [Handle.references] using listed

def cacheAt (m : Memory) (a : Nat) : CacheDB Bytes Bytes := m.caches.getD a OrderedMap.empty

def database (m : Memory) (h : Handle) : Database Bytes Bytes := ⟨m.store,m.cacheAt h.cache⟩

def replace (m : Memory) (i : Nat) (h : Handle) (caches : List (CacheDB Bytes Bytes)) (longer : m.caches.length ≤ caches.length)
    (inside : ∀ a ∈ h.references, a < caches.length) : Memory where
  store := m.store
  caches := caches
  handles := m.handles.set i h
  allocated := by
    intro other member a listed
    rcases List.mem_or_eq_of_mem_set member with old | rfl
    · exact (m.allocated other old a listed).trans_le longer
    · exact inside a listed

/-- Views are counted behind the first database. -/
def getStore (m : Memory) (more : Bytes) : Option (Reply × Memory) :=
  match found : m.handles[0]? with
  | none => none
  | some root => some (.store (m.handles.length - 1),
    {m with
      handles := m.handles ++ [root.withPrefix more]
      allocated := by
        intro h member a listed
        rcases List.mem_append.mp member with old | new
        · exact m.allocated h old a listed
        · rw [List.mem_singleton.mp new] at listed
          exact m.allocated root (List.mem_of_getElem? found) a (by simp_all [Handle.references,Handle.withPrefix])})

def call (m : Memory) (i : Nat) (c : StoreCall) : Option (Reply × Memory) :=
  match m.handles[i]? with
  | none => none
  | some h => (h.view.answer (m.database h) c).map (fun result =>
    (result.1, {m with
      caches := m.caches.set h.cache result.2.cache
      allocated := by simpa using m.allocated}))

def snapshot (m : Memory) (i : Nat) : Option (Int × Memory) :=
  match found : m.handles[i]? with
  | none => none
  | some h => some (h.snapshotCount,
    m.replace i (h.snapshot m.caches.length) (m.caches ++ [m.cacheAt h.cache]) (by simp) (by
      intro a listed
      rw [List.length_append,List.length_singleton]
      rcases h.snapshotReferences _ a listed with old | rfl
      · exact (m.allocated h (List.mem_of_getElem? found) a old).trans (Nat.lt_succ_self _)
      · exact Nat.lt_succ_self _))

def deleteSnapshot (m : Memory) (i : Nat) (id : Int) : Option Memory :=
  match found : m.handles[i]? with
  | none => none
  | some h => some (m.replace i (h.deleteSnapshot id) m.caches le_rfl
    (fun a listed => m.allocated h (List.mem_of_getElem? found) a (h.deletedReferences id a listed)))

def restoreSnapshot (m : Memory) (i : Nat) (id : Int) : Option (Bool × Memory) :=
  match found : m.handles[i]? with
  | none => none
  | some h =>
    match restored : h.restoreSnapshot id with
    | none => some (false, m)
    | some h' => some (true, m.replace i h' m.caches le_rfl
      (fun a listed => m.allocated h (List.mem_of_getElem? found) a (Handle.restoredReferences restored a listed)))

structure Hidden (a : Nat) (m : Memory) : Prop where
  below : a < m.caches.length
  root : ∀ h, m.handles[0]? = some h → h.cache ≠ a
  views : ∀ i h, m.handles[i + 1]? = some h → a ∉ h.references

structure Kept (a : Nat) (m m' : Memory) : Prop where
  hidden : Hidden a m'
  store : m'.store = m.store
  root : m'.handles[0]? = m.handles[0]?
  cache : m'.cacheAt a = m.cacheAt a

theorem Kept.refl (hidden : Hidden a m) : Kept a m m := ⟨hidden,rfl,rfl,rfl⟩

theorem Kept.trans (first : Kept a m m') (second : Kept a m' m'') : Kept a m m'' :=
  ⟨second.hidden,second.store.trans first.store,second.root.trans first.root,second.cache.trans first.cache⟩

section
variable {a : Nat} {m : Memory} (hidden : Hidden a m)
include hidden

theorem replaceKept (i : Nat) (h : Handle) (caches : List (CacheDB Bytes Bytes)) (longer : m.caches.length ≤ caches.length)
    (inside : ∀ a ∈ h.references, a < caches.length) (avoids : a ∉ h.references)
    (same : caches.getD a OrderedMap.empty = m.cacheAt a) : Kept a m (m.replace (i+1) h caches longer inside) := by
  have root : (m.handles.set (i+1) h)[0]? = m.handles[0]? := getElem?_set_ne (by omega)
  refine ⟨⟨hidden.below.trans_le longer,fun h' hit => hidden.root h' (root.symm.trans hit),fun j h' hit => ?_⟩,rfl,root,same⟩
  have hit : (m.handles.set (i+1) h)[j+1]? = some h' := hit
  rw [getElem?_set] at hit
  split at hit
  · split at hit
    · rw [← Option.some.inj hit]
      exact avoids
    · cases hit
  · exact hidden.views j h' hit

theorem getStoreKept (ok : m.getStore more = some (r,m')) : Kept a m m' := by
  unfold getStore at ok
  split at ok
  · cases ok
  rename_i root hit
  cases ok
  have pos := (List.getElem?_eq_some_iff.mp hit).1
  have first : (m.handles ++ [root.withPrefix more])[0]? = m.handles[0]? := getElem?_append_left pos
  refine ⟨⟨hidden.below,fun h at0 => hidden.root h (first.symm.trans at0),fun j h at1 => ?_⟩,rfl,first,rfl⟩
  rcases Nat.lt_or_ge (j+1) m.handles.length with old | new
  · exact hidden.views j h ((getElem?_append_left old).symm.trans at1)
  · rw [getElem?_append_right new] at at1
    rw [mem_singleton.mp (mem_of_getElem? at1)]
    simpa [Handle.references,Handle.withPrefix] using (hidden.root root hit).symm

theorem callKept (ok : m.call i c = some (r,m')) : Kept a m m' := by
  unfold call at ok
  split at ok
  · cases ok
  rename_i h hit
  obtain ⟨res,_,same⟩ := Option.map_eq_some_iff.mp ok
  cases same
  have other : h.cache ≠ a := by
    cases i with
    | zero => exact hidden.root h hit
    | succ i => exact fun same => hidden.views i h hit (same ▸ mem_cons_self)
  exact ⟨⟨by simpa using hidden.below,hidden.root,hidden.views⟩,rfl,rfl,by simp [cacheAt,getElem?_set_ne other]⟩

theorem snapshotKept {id} (ok : m.snapshot (i+1) = some (id,m')) : Kept a m m' := by
  unfold snapshot at ok
  split at ok
  · cases ok
  rename_i h hit
  cases ok
  refine replaceKept hidden i _ _ _ _ (fun listed => ?_) (by simp [cacheAt,getElem?_append_left hidden.below])
  rcases h.snapshotReferences _ a listed with old | rfl
  · exact hidden.views i h hit old
  · exact lt_irrefl _ hidden.below

theorem restoreSnapshotKept {i id done m'} (ok : m.restoreSnapshot (i+1) id = some (done,m')) : Kept a m m' := by
  unfold restoreSnapshot at ok
  split at ok
  · cases ok
  rename_i h hit
  split at ok
  · cases ok
    exact Kept.refl hidden
  rename_i h' restored
  cases ok
  exact replaceKept hidden i h' m.caches le_rfl _
    (fun listed => hidden.views i h hit (Handle.restoredReferences restored a listed)) rfl

end

theorem restoreSnapshotOk {m : Memory} {i id h h'} (hit : m.handles[i]? = some h) (restored : h.restoreSnapshot id = some h') :
    ∃ m', m.restoreSnapshot i id = some (true,m') ∧ m'.handles = m.handles.set i h' ∧ m'.store = m.store ∧ m'.caches = m.caches := by
  unfold restoreSnapshot
  split
  · rename_i absent
    rw [hit] at absent
    cases absent
  · rename_i h₁ found₁
    cases hit.symm.trans found₁
    split
    · rename_i absent
      rw [restored] at absent
      cases absent
    · rename_i h₂ restored₂
      cases restored.symm.trans restored₂
      exact ⟨_,rfl,rfl,rfl,rfl⟩

theorem snapshotOk {m : Memory} {i h} (hit : m.handles[i]? = some h) :
    ∃ m', m.snapshot i = some (h.snapshotCount,m') ∧ m'.handles = m.handles.set i (h.snapshot m.caches.length) ∧ m'.store = m.store ∧
      m'.caches = m.caches ++ [m.cacheAt h.cache] := by
  unfold snapshot
  split
  · rename_i absent
    rw [hit] at absent
    cases absent
  · rename_i h₁ found₁
    cases hit.symm.trans found₁
    exact ⟨_,rfl,rfl,rfl,rfl⟩

theorem deleteSnapshotOk {m : Memory} {i h} (hit : m.handles[i]? = some h) (id : Int) :
    ∃ m', m.deleteSnapshot i id = some m' ∧ m'.handles[i]? = some (h.deleteSnapshot id) ∧ m'.store = m.store ∧
      m'.caches = m.caches := by
  have fit := (List.getElem?_eq_some_iff.mp hit).1
  unfold deleteSnapshot
  split
  · rename_i absent
    rw [hit] at absent
    cases absent
  · rename_i h₁ found₁
    cases hit.symm.trans found₁
    exact ⟨_,rfl,List.getElem?_set_self fit,rfl,rfl⟩

def reads (m : Memory) (more : Bytes) (c : StoreCall) : Option Reply :=
  match m.handles[0]? with
  | none => none
  | some root => ((root.withPrefix more).view.answer (m.database root) c).map Prod.fst

theorem readsOf {m m' : Memory} {root root'} (hit : m.handles[0]? = some root) (hit' : m'.handles[0]? = some root')
    (start : root'.keyPrefix = root.keyPrefix) (same : m'.database root' = m.database root) (more : Bytes) (c : StoreCall) :
    m'.reads more c = m.reads more c := by
  simp only [reads,hit,hit',Handle.withPrefix,Handle.view,start,same]

theorem snapshotReads {m m' : Memory} {id} (taken : m.snapshot 0 = some (id,m')) (more : Bytes) (c : StoreCall) :
    m'.reads more c = m.reads more c := by
  unfold snapshot at taken
  split at taken
  · cases taken
  rename_i root hit
  cases taken
  have pos := (List.getElem?_eq_some_iff.mp hit).1
  have below := m.allocated root (mem_of_getElem? hit) _ (.head _)
  have first : (m.handles.set 0 (root.snapshot m.caches.length))[0]? = some (root.snapshot m.caches.length) :=
    getElem?_set_self pos
  refine @readsOf m _ root (root.snapshot m.caches.length) hit first rfl ?_ more c
  simp [database,replace,cacheAt,Handle.snapshot,getElem?_append_left below]

theorem snapshotHidden {m m' : Memory} {id} (taken : m.snapshot 0 = some (id,m')) : Hidden m.caches.length m' := by
  unfold snapshot at taken
  split at taken
  · cases taken
  rename_i root hit
  cases taken
  have pos := (List.getElem?_eq_some_iff.mp hit).1
  have first : (m.handles.set 0 (root.snapshot m.caches.length))[0]? = some (root.snapshot m.caches.length) :=
    getElem?_set_self pos
  refine ⟨by simp [replace],fun h at0 => ?_,fun i h at1 listed => ?_⟩
  · rw [← Option.some.inj (first.symm.trans at0)]
    exact (m.allocated root (mem_of_getElem? hit) _ (.head _)).ne
  · have old := (getElem?_set_ne (by omega)).symm.trans at1
    exact lt_irrefl _ (m.allocated h (mem_of_getElem? old) _ listed)

theorem rollback {m m' m'' : Memory} {id} (taken : m.snapshot 0 = some (id,m')) (kept : Kept m.caches.length m' m'') :
    ∃ back deleted, m''.restoreSnapshot 0 id = some (true,back) ∧ back.deleteSnapshot 0 id = some deleted ∧
      (∀ more c, back.reads more c = m.reads more c) ∧ ∀ more c, deleted.reads more c = m.reads more c := by
  unfold snapshot at taken
  split at taken
  · cases taken
  rename_i root hit
  cases taken
  have pos := (List.getElem?_eq_some_iff.mp hit).1
  have first := kept.root.trans (getElem?_set_self pos)
  obtain ⟨h,restored,start,cache⟩ := root.restoreTaken m.caches.length
  obtain ⟨back,restore,handles,store,caches⟩ := restoreSnapshotOk first restored
  have at0 : back.handles[0]? = some h := handles ▸ getElem?_set_self (List.getElem?_eq_some_iff.mp first).1
  obtain ⟨deleted,delete,at0',store',caches'⟩ := deleteSnapshotOk at0 root.snapshotCount
  have copy : m''.cacheAt m.caches.length = m.cacheAt root.cache := kept.cache.trans (by simp [replace,cacheAt])
  have same : back.database h = m.database root := by
    simp only [database,cacheAt,store.trans kept.store,caches,cache]
    exact congrArg _ copy
  have same' : deleted.database (h.deleteSnapshot root.snapshotCount) = back.database h := by
    simp only [database,cacheAt,store',caches']
    rfl
  exact ⟨back,deleted,restore,delete,readsOf hit at0 start same,readsOf hit at0' start (same'.trans same)⟩

end Memory
end LiskEngine.Diffdb
