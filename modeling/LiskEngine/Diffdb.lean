import LiskEngine.OrderedMap

/-! The diffdb overlay: reads go to a cache over a persisted map, writes stay in
the cache, `commit` turns it into batch writes plus a diff, and the diff undoes
them. Keys and values are arbitrary types, so that the consensus store and the
application state store use the same overlay. A map iteration of the source is
the list of cache entries in some order. -/
namespace LiskEngine.Diffdb
open List Option OrderedMap

structure CacheValue (V : Type) where
  init : Option V
  value : V
  dirty : Bool
  deleted : Bool
  deriving DecidableEq, Repr

abbrev CacheDB (K V : Type) [LinearOrder K] := OrderedMap K (CacheValue V)

inductive CacheRead (V : Type) where
  | absent
  | deleted
  | present (value : V)
  deriving DecidableEq, Repr

namespace CacheDB
variable {K V : Type} [LinearOrder K]

def add (c : CacheDB K V) (key : K) (value : V) : CacheDB K V :=
  OrderedMap.set c key ⟨none,value,false,false⟩

def cache (c : CacheDB K V) (key : K) (value : V) : CacheDB K V :=
  OrderedMap.set c key ⟨some value,value,false,false⟩

/-- The source panics on a key that is not cached; `Database.set` never passes one. -/
def set (c : CacheDB K V) (key : K) (value : V) : CacheDB K V :=
  match OrderedMap.get c key with
  | none => c
  | some original =>
    OrderedMap.set c key {original with deleted := false, dirty := true, value := value}

def get (c : CacheDB K V) (key : K) : CacheRead V :=
  match OrderedMap.get c key with
  | none => .absent
  | some original => if original.deleted then .deleted else .present original.value

def del (c : CacheDB K V) (key : K) : CacheDB K V :=
  match OrderedMap.get c key with
  | none => c
  | some original =>
    match original.init with
    | none => OrderedMap.del c key
    | some _ => OrderedMap.set c key {original with deleted := true}

def existAny (c : CacheDB K V) (key : K) : Bool := (OrderedMap.get c key).isSome

def dataBetween (c : CacheDB K V) (start stop : K) : List (K × V) :=
  ((c.between start stop).filter (fun e => !e.2.deleted)).map (fun e => (e.1, e.2.value))

end CacheDB

structure Database (K V : Type) [LinearOrder K] where
  store : OrderedMap K V
  cache : CacheDB K V
  deriving DecidableEq

inductive Write (K V : Type) where
  | set (key : K) (value : V)
  | del (key : K)
  deriving DecidableEq, Repr

structure Diff (K V : Type) where
  added : List K
  updated : List (K × V)
  deleted : List (K × V)
  deriving DecidableEq, Repr

section
variable {K V : Type} [LinearOrder K]

/-- A limit below one still returns the entry found before the count is compared. -/
def iterateRange (store : OrderedMap K V) (start stop : K) (limit : Int) (reverse : Bool) :
    List (K × V) :=
  let found := if reverse then (store.between start stop).reverse else store.between start stop
  if limit = -1 then found else found.take (max 1 limit.toNat)

def applyWrite (store : OrderedMap K V) : Write K V → OrderedMap K V
  | .set key value => store.set key value
  | .del key => store.del key

def applyWrites (store : OrderedMap K V) (writes : List (Write K V)) : OrderedMap K V :=
  writes.foldl applyWrite store

namespace Database

def new (store : OrderedMap K V) : Database K V := ⟨store,OrderedMap.empty⟩

def ensureCache (db : Database K V) (key : K) : Option (CacheDB K V) :=
  (db.store.get key).map (fun value => db.cache.cache key value)

def get (db : Database K V) (key : K) : Option V × Database K V :=
  match db.cache.get key with
  | .present value => (some value, db)
  | .deleted => (none, db)
  | .absent =>
    match db.store.get key with
    | none => (none, db)
    | some value => (some value, {db with cache := db.cache.cache key value})

def set (db : Database K V) (key : K) (value : V) : Database K V :=
  if db.cache.existAny key then {db with cache := db.cache.set key value}
  else match db.ensureCache key with
    | some cache => {db with cache := cache.set key value}
    | none => {db with cache := db.cache.add key value}

def del (db : Database K V) (key : K) : Database K V :=
  let cache := if db.cache.existAny key then db.cache else (db.ensureCache key).getD db.cache
  {db with cache := cache.del key}

/-- A stored entry that was not cached yet is cached and listed with an empty
value; the cached listing below then carries its real value. -/
def collectStored [Inhabited V] : List (K × V) → List (K × V) × CacheDB K V → List (K × V) × CacheDB K V
  | [], acc => acc
  | data :: rest, (stored, cache) =>
    match cache.get data.1 with
    | .deleted => collectStored rest (stored, cache)
    | .present value => collectStored rest (stored ++ [(data.1, value)], cache)
    | .absent => collectStored rest (stored ++ [(data.1, default)], cache.cache data.1 data.2)

def mergeSortLimit (cached stored : List (K × V)) (reverse : Bool) (limit : Int) : List (K × V) :=
  let result := cached ++ stored.filter (fun data => data.1 ∉ cached.map Prod.fst)
  let ordered := if reverse then result.insertionSort (fun a b => b.1 ≤ a.1)
    else result.insertionSort (fun a b => a.1 ≤ b.1)
  if limit > -1 ∧ limit < ordered.length then ordered.take limit.toNat else ordered

def range [Inhabited V] (db : Database K V) (start stop : K) (limit : Int) (reverse : Bool) :
    List (K × V) × Database K V :=
  let (stored, cache) := collectStored (iterateRange db.store start stop limit reverse) ([], db.cache)
  (mergeSortLimit (cache.dataBetween start stop) stored reverse limit, {db with cache := cache})

end Database

def commitEntry (acc : List (Write K V) × Diff K V) (e : K × CacheValue V) : List (Write K V) × Diff K V :=
  match e.2.init with
  | none => (acc.1 ++ [.set e.1 e.2.value], {acc.2 with added := acc.2.added ++ [e.1]})
  | some init =>
    if e.2.deleted then (acc.1 ++ [.del e.1], {acc.2 with deleted := acc.2.deleted ++ [(e.1, init)]})
    else if e.2.dirty then
      (acc.1 ++ [.set e.1 e.2.value], {acc.2 with updated := acc.2.updated ++ [(e.1, init)]})
    else acc

/-- The cache entries are visited in the order given; the source visits a map. -/
def commitEntries (order : List (K × CacheValue V)) : List (Write K V) × Diff K V :=
  order.foldl commitEntry ([], ⟨[],[],[]⟩)

def Database.commit (db : Database K V) : List (Write K V) × Diff K V :=
  commitEntries db.cache.entries

def revertDiff (diff : Diff K V) : List (Write K V) :=
  diff.added.map .del ++ diff.deleted.map (fun e => .set e.1 e.2) ++
    diff.updated.map (fun e => .set e.1 e.2)

def Write.key : Write K V → K
  | .set key _ => key
  | .del key => key

def Write.result : Write K V → Option V
  | .set _ value => some value
  | .del _ => none

theorem applyWriteGet (store : OrderedMap K V) (w : Write K V) (k : K) :
    (applyWrite store w).get k = if k = w.key then w.result else store.get k := by
  cases w with
  | set key value => exact getSet store key k value
  | del key => exact getDel store key k

theorem applyWritesUntouched (absent : ∀ w ∈ writes, w.key ≠ k) (store : OrderedMap K V) :
    (applyWrites store writes).get k = store.get k := by
  induction writes generalizing store with
  | nil => rfl
  | cons w rest ih =>
    have step := ih (fun w' mem => absent w' (.tail _ mem)) (applyWrite store w)
    have skip : k ≠ w.key := (absent w (by simp)).symm
    exact step.trans (by rw [applyWriteGet,if_neg skip])

theorem applyWritesTouched (mem : w ∈ writes) (nodup : (writes.map Write.key).Nodup) (store : OrderedMap K V) :
    (applyWrites store writes).get w.key = w.result := by
  induction writes generalizing store with
  | nil => simp at mem
  | cons head rest ih =>
    obtain ⟨fresh,tail⟩ := nodup_cons.mp nodup
    rcases mem_cons.mp mem with same | later
    · subst same
      have absent : ∀ w' ∈ rest, w'.key ≠ w.key := fun w' inside eq =>
        fresh (eq ▸ mem_map_of_mem inside)
      exact (applyWritesUntouched absent (applyWrite store w)).trans (by simp [applyWriteGet])
    · exact ih later tail (applyWrite store head)

def commitWrite (e : K × CacheValue V) : Option (Write K V) :=
  match e.2.init with
  | none => some (.set e.1 e.2.value)
  | some _ => if e.2.deleted then some (.del e.1) else if e.2.dirty then some (.set e.1 e.2.value) else none

def undoWrite (e : K × CacheValue V) : Option (Write K V) :=
  match e.2.init with
  | none => some (.del e.1)
  | some init => if e.2.deleted ∨ e.2.dirty then some (.set e.1 init) else none

omit [LinearOrder K] in
theorem commitWriteKey (h : commitWrite e = some w) : w.key = e.1 := by
  unfold commitWrite at h
  split at h
  · cases h; rfl
  split at h
  · cases h; rfl
  · split at h
    · cases h; rfl
    · contradiction

omit [LinearOrder K] in
theorem undoWriteKey (h : undoWrite e = some w) : w.key = e.1 := by
  unfold undoWrite at h
  split at h
  · cases h; rfl
  · split at h
    · cases h; rfl
    · contradiction

omit [LinearOrder K] in
theorem commitFold (order : List (K × CacheValue V)) (acc : List (Write K V) × Diff K V) :
    (order.foldl commitEntry acc).1 = acc.1 ++ order.filterMap commitWrite ∧
    (revertDiff (order.foldl commitEntry acc).2).Perm (revertDiff acc.2 ++ order.filterMap undoWrite) := by
  induction order generalizing acc with
  | nil => simp
  | cons e rest ih =>
    obtain ⟨writes,undone⟩ := ih (commitEntry acc e)
    rw [foldl_cons]
    have step : (commitEntry acc e).1 = acc.1 ++ (commitWrite e).toList ∧
        (revertDiff (commitEntry acc e).2).Perm (revertDiff acc.2 ++ (undoWrite e).toList) := by
      unfold commitEntry commitWrite undoWrite revertDiff
      cases init : e.2.init with
      | none =>
        refine ⟨rfl,?_⟩
        simp only [map_append,map_cons,map_nil,toList_some,append_assoc]
        exact List.Perm.append_left _ (perm_append_comm.trans (by rw [append_assoc]))
      | some v =>
        by_cases gone : e.2.deleted = true
        · refine ⟨by simp [gone],?_⟩
          simp only [gone,if_true,true_or,map_append,map_cons,map_nil,toList_some,append_assoc]
          exact List.Perm.append_left _ (List.Perm.append_left _ perm_append_comm)
        · by_cases dirty : e.2.dirty = true <;> simp [gone,dirty]
    constructor
    · rw [writes,step.1,append_assoc]
      cases h : commitWrite e <;> simp [h]
    · refine undone.trans ((step.2.append_right _).trans ?_)
      cases h : undoWrite e <;> simp [h]

omit [LinearOrder K] in
theorem commitEntriesWrites (order : List (K × CacheValue V)) : (commitEntries order).1 = order.filterMap commitWrite := by
  simpa [commitEntries] using (commitFold order ([],⟨[],[],[]⟩)).1

omit [LinearOrder K] in
theorem commitEntriesUndo (order : List (K × CacheValue V)) :
    (revertDiff (commitEntries order).2).Perm (order.filterMap undoWrite) := by
  simpa [commitEntries,revertDiff] using (commitFold order ([],⟨[],[],[]⟩)).2

omit [LinearOrder K] in
theorem filterMapKeysNodup {order : List (K × CacheValue V)} {f : K × CacheValue V → Option (Write K V)}
    (keeps : ∀ e w, f e = some w → w.key = e.1) (nodup : (order.map Prod.fst).Nodup) : ((order.filterMap f).map Write.key).Nodup := by
  induction order with
  | nil => simp
  | cons e rest ih =>
    obtain ⟨fresh,tail⟩ := nodup_cons.mp nodup
    cases h : f e with
    | none => simpa [h] using ih tail
    | some w =>
      simp only [filterMap_cons,h,map_cons,nodup_cons]
      refine ⟨fun mem => fresh ?_,ih tail⟩
      obtain ⟨w',inside,same⟩ := mem_map.mp mem
      obtain ⟨e',old,made⟩ := mem_filterMap.mp inside
      rw [← keeps e w h,← same,keeps e' w' made]
      exact mem_map_of_mem old

namespace Database

def view (db : Database K V) (k : K) : Option V :=
  match OrderedMap.get db.cache k with
  | some c => if c.deleted then none else some c.value
  | none => db.store.get k

structure Coherent (db : Database K V) : Prop where
  init : ∀ k c, OrderedMap.get db.cache k = some c → c.init = db.store.get k
  kept : ∀ k c, OrderedMap.get db.cache k = some c → c.init = none → c.deleted = false
  clean : ∀ k c, OrderedMap.get db.cache k = some c → c.dirty = false → c.deleted = false →
    ∀ v, c.init = some v → c.value = v

theorem cacheKeysNodup (c : CacheDB K V) : (c.entries.map Prod.fst).Nodup := by
  rw [List.Nodup,pairwise_map]
  exact c.sorted.imp (fun inside => ne_of_lt inside)

theorem orderKeysNodup {c : CacheDB K V} {order : List (K × CacheValue V)} (perm : order.Perm c.entries) :
    (order.map Prod.fst).Nodup := ((perm.map Prod.fst).nodup_iff).mpr (cacheKeysNodup c)

theorem memOrderIff {order : List (K × CacheValue V)} (perm : order.Perm c.entries) (k : K) (v : CacheValue V) :
    (k,v) ∈ order ↔ OrderedMap.get c k = some v :=
  (perm.mem_iff).trans (memIffGet c k v)

theorem batchGet {c} {order : List (K × CacheValue V)} (perm : order.Perm c.entries) {f}
    (keeps : ∀ e w, f e = some w → w.key = e.1) {writes} (listed : writes.Perm (order.filterMap f)) (store : OrderedMap K V)
    (k : K) :
    (applyWrites store writes).get k = match OrderedMap.get c k with
      | none => store.get k
      | some v => match f (k,v) with
        | none => store.get k
        | some w => w.result := by
  have source : ∀ w ∈ writes, ∃ v, OrderedMap.get c w.key = some v ∧ f (w.key,v) = some w := by
    intro w mem
    obtain ⟨⟨k',v⟩,inside,made⟩ := mem_filterMap.mp (listed.mem_iff.mp mem)
    have key : k' = w.key := (keeps _ _ made).symm
    subst key
    exact ⟨v,(memOrderIff perm _ v).mp inside,made⟩
  cases hit : OrderedMap.get c k with
  | none =>
    refine applyWritesUntouched (fun w mem same => ?_) store
    obtain ⟨v,held,_⟩ := source w mem
    rw [same,hit] at held
    contradiction
  | some v =>
    cases made : f (k,v) with
    | none =>
      simp only [made]
      refine applyWritesUntouched (fun w mem same => ?_) store
      obtain ⟨v',held,made'⟩ := source w mem
      rw [same] at held made'
      have eq : v = v' := some.inj (hit.symm.trans held)
      rw [← eq,made] at made'
      contradiction
    | some w =>
      have mem : w ∈ writes := listed.mem_iff.mpr (mem_filterMap.mpr ⟨_,(memOrderIff perm k v).mpr hit,made⟩)
      have nodup := ((listed.map Write.key).nodup_iff).mpr (filterMapKeysNodup keeps (orderKeysNodup perm))
      have applied := applyWritesTouched mem nodup store
      rw [keeps _ _ made] at applied
      simp only [made]
      exact applied

theorem commitApplied {db} (coh : Coherent db) {order : List (K × CacheValue V)} (perm : order.Perm db.cache.entries) (k : K) :
    (applyWrites db.store (commitEntries order).1).get k = db.view k := by
  rw [batchGet perm (fun _ _ h => commitWriteKey h) (commitEntriesWrites order ▸ List.Perm.refl _)]
  unfold view
  cases hit : OrderedMap.get db.cache k with
  | none => rfl
  | some c =>
    obtain ⟨init,value,dirty,deleted⟩ := c
    have stored := coh.init k _ hit
    cases init with
    | none =>
      have kept := coh.kept k _ hit rfl
      simp only at kept
      simp [commitWrite,Write.result,kept]
    | some v =>
      cases deleted with
      | true => simp [commitWrite,Write.result]
      | false =>
        cases dirty with
        | true => simp [commitWrite,Write.result]
        | false =>
          have same := coh.clean k _ hit rfl rfl v rfl
          simp only at same stored
          simp [commitWrite,← stored,same]

theorem revertApplied (coh : Coherent db) {order : List (K × CacheValue V)} (perm : order.Perm db.cache.entries) :
    applyWrites (applyWrites db.store (commitEntries order).1) (revertDiff (commitEntries order).2) = db.store := by
  apply OrderedMap.extGet
  intro k
  rw [batchGet perm (fun _ _ h => undoWriteKey h) (commitEntriesUndo order),commitApplied coh perm]
  unfold view
  cases hit : OrderedMap.get db.cache k with
  | none => rfl
  | some c =>
    obtain ⟨init,value,dirty,deleted⟩ := c
    have stored := coh.init k _ hit
    simp only at stored
    cases init with
    | none => simp [undoWrite,Write.result,stored]
    | some v =>
      cases deleted with
      | true => simp [undoWrite,Write.result,stored]
      | false =>
        cases dirty with
        | true => simp [undoWrite,Write.result,stored]
        | false =>
          have same := coh.clean k _ hit rfl rfl v rfl
          simp only at same
          simp [undoWrite,← stored,same]

theorem newCoherent (store : OrderedMap K V) : Coherent (new store) := by
  constructor <;> intro k c found <;> simp [new,getEmpty] at found

theorem newView (store : OrderedMap K V) (k : K) : (new store).view k = store.get k := rfl

theorem putCoherent (coh : Coherent db) {key : K} {c : CacheValue V} (init : c.init = db.store.get key)
    (kept : c.init = none → c.deleted = false) (clean : c.dirty = false → c.deleted = false → ∀ v, c.init = some v → c.value = v) :
    Coherent {db with cache := OrderedMap.set db.cache key c} := by
  constructor <;> intro k c' found <;> simp only [getSet] at found <;> split at found
  · cases found; rename_i same; rw [same]; exact init
  · exact coh.init k c' found
  · cases found; exact kept
  · exact coh.kept k c' found
  · cases found; exact clean
  · exact coh.clean k c' found

theorem putView (db : Database K V) (key : K) (c : CacheValue V) (k : K) :
    ({db with cache := OrderedMap.set db.cache key c} : Database K V).view k =
      if k = key then (if c.deleted then none else some c.value) else db.view k := by
  unfold view
  by_cases same : k = key <;> simp [getSet,same]

theorem getView (db : Database K V) (k : K) : (db.get k).1 = db.view k := by
  unfold get view CacheDB.get
  cases OrderedMap.get db.cache k with
  | none => simp only; cases db.store.get k <;> rfl
  | some c => simp only; cases c.deleted <;> rfl

theorem setSpec (coh : Coherent db) (key : K) (value : V) :
    ∃ c : CacheValue V, db.set key value = {db with cache := OrderedMap.set db.cache key c} ∧
      c.init = db.store.get key ∧ c.deleted = false ∧ c.value = value ∧ (c.init = none ∨ c.dirty = true) := by
  unfold set CacheDB.existAny CacheDB.set
  cases hit : OrderedMap.get db.cache key with
  | some c =>
    exact ⟨{c with deleted := false, dirty := true, value := value},rfl,coh.init key c hit,rfl,rfl,Or.inr rfl⟩
  | none =>
    unfold ensureCache CacheDB.cache
    cases stored : db.store.get key with
    | none => exact ⟨⟨none,value,false,false⟩,by simp [CacheDB.add],rfl,rfl,rfl,Or.inl rfl⟩
    | some v =>
      refine ⟨⟨some v,value,true,false⟩,?_,rfl,rfl,rfl,Or.inr rfl⟩
      simp only [isSome_none,Bool.false_eq_true,if_false,map_some,OrderedMap.getSet,if_true]
      congr 1
      apply OrderedMap.extGet
      intro k
      simp only [OrderedMap.getSet]
      split <;> rfl

theorem setCoherent {db : Database K V} (coh : Coherent db) (key : K) (value : V) : Coherent (db.set key value) := by
  obtain ⟨c,eq,init,live,_,touched⟩ := setSpec coh key value
  rw [eq]
  refine putCoherent coh init (fun _ => live) (fun clean _ v held => ?_)
  rcases touched with fresh | dirty
  · rw [fresh] at held; contradiction
  · rw [dirty] at clean; contradiction

theorem setView (coh : Coherent db) (key : K) (value : V) (k : K) :
    (db.set key value).view k = if k = key then some value else db.view k := by
  obtain ⟨c,eq,_,live,held,_⟩ := setSpec coh key value
  rw [eq,putView,live,held]
  simp

theorem delCached {db} (coh : Coherent db) {key : K} {c : CacheValue V} (hit : OrderedMap.get db.cache key = some c) :
    Coherent {db with cache := db.cache.del key} ∧
    ∀ k, ({db with cache := db.cache.del key} : Database K V).view k = if k = key then none else db.view k := by
  have init := coh.init key c hit
  unfold CacheDB.del
  simp only [hit]
  cases held : c.init with
  | none =>
    constructor
    · constructor <;> intro k c' found' <;> simp only [getDel] at found' <;> split at found'
      · contradiction
      · exact coh.init k c' found'
      · contradiction
      · exact coh.kept k c' found'
      · contradiction
      · exact coh.clean k c' found'
    · intro k
      unfold view
      by_cases same : k = key
      · simp [getDel,same,← init,held]
      · simp [getDel,same]
  | some v =>
    constructor
    · refine putCoherent coh (held.symm.trans init) (fun absent => ?_) (fun _ gone => ?_)
      · contradiction
      · contradiction
    · intro k
      rw [putView]
      rfl

theorem delSpec {db : Database K V} (coh : Coherent db) (key : K) :
    Coherent (db.del key) ∧ ∀ k, (db.del key).view k = if k = key then none else db.view k := by
  unfold del CacheDB.existAny
  cases hit : OrderedMap.get db.cache key with
  | some c => simpa using delCached coh hit
  | none =>
    unfold ensureCache
    cases stored : db.store.get key with
    | none =>
      simp only [isSome_none,Bool.false_eq_true,if_false,map_none,getD_none]
      unfold CacheDB.del
      simp only [hit]
      refine ⟨coh,fun k => ?_⟩
      split
      · rename_i same; simp [view,same,hit,stored]
      · rfl
    | some v =>
      have cached : Coherent {db with cache := db.cache.cache key v} :=
        putCoherent coh stored.symm (fun absent => rfl) (fun _ _ w held => some.inj held)
      have present : OrderedMap.get (db.cache.cache key v) key = some ⟨some v,v,false,false⟩ := by
        simp [CacheDB.cache,OrderedMap.getSet]
      have next := delCached cached present
      refine ⟨next.1,fun k => (next.2 k).trans ?_⟩
      split
      · rfl
      · rename_i other; simp [CacheDB.cache,putView,other]

theorem delCoherent (coh : Coherent db) (key : K) : Coherent (db.del key) := (delSpec coh key).1

theorem delView (coh : Coherent db) (key k : K) :
    (db.del key).view k = if k = key then none else db.view k := (delSpec coh key).2 k

theorem setStore (db : Database K V) (key : K) (value : V) : (db.set key value).store = db.store := by
  unfold set
  split
  · rfl
  · split <;> rfl

def flush (db : Database K V) : Database K V := new (applyWrites db.store db.commit.1)

theorem flushView (coh : Coherent db) (k : K) : db.flush.view k = db.view k := commitApplied coh (List.Perm.refl _) k

theorem flushCoherent (db : Database K V) : Coherent db.flush := newCoherent _

theorem delStore (db : Database K V) (key : K) : (db.del key).store = db.store := rfl

end Database
end
end LiskEngine.Diffdb
