import LiskEngine.Diffdb

/-! Range scans of the overlay. A scan without a limit lists what a reader sees; a scan for
one greatest key is only right where no deleted persisted key hides the answer. -/
namespace LiskEngine.Diffdb
open List OrderedMap Bool

section
variable {K V : Type} [LinearOrder K]

namespace Database

theorem collectStoredCons [Inhabited V] (data : K × V) (rest stored : List (K × V)) (cache : CacheDB K V) : ∃ stored' cache',
    collectStored (data::rest) (stored,cache) = collectStored rest (stored',cache') ∧
    (∀ k, OrderedMap.get cache' k = (OrderedMap.get cache k).or (if data.1 = k then some ⟨some data.2,data.2,false,false⟩ else none)) ∧
    ∀ e ∈ stored', e ∈ stored ∨ e.1 = data.1 ∧ ∃ c, OrderedMap.get cache' data.1 = some c ∧ c.deleted = false := by
  have listed (v : V) {cache' : CacheDB K V} {c} (held : OrderedMap.get cache' data.1 = some c) (live : c.deleted = false) :
      ∀ e ∈ stored ++ [(data.1,v)], e ∈ stored ∨ e.1 = data.1 ∧ ∃ c, OrderedMap.get cache' data.1 = some c ∧ c.deleted = false := by
    intro e mem
    rcases mem_append.mp mem with before | new
    · exact .inl before
    · exact .inr ⟨by rw [mem_singleton.mp new],c,held,live⟩
  cases held : OrderedMap.get cache data.1 with
  | some c =>
    have kept : ∀ k, OrderedMap.get cache k =
        (OrderedMap.get cache k).or (if data.1 = k then some ⟨some data.2,data.2,false,false⟩ else none) := by
      intro k
      by_cases same : data.1 = k
      · rw [← same,held]
        rfl
      · rw [if_neg same,Option.or_none]
    cases gone : c.deleted with
    | true => exact ⟨stored,cache,by simp only [collectStored,CacheDB.get,held,gone,if_true],kept,fun e => Or.inl⟩
    | false =>
      exact ⟨_,cache,by simp only [collectStored,CacheDB.get,held,gone,false_eq_true,if_false],kept,listed c.value held gone⟩
  | none =>
    have gets : ∀ k, OrderedMap.get (cache.cache data.1 data.2) k =
        (OrderedMap.get cache k).or (if data.1 = k then some ⟨some data.2,data.2,false,false⟩ else none) := by
      intro k
      rw [CacheDB.cache,getSet]
      by_cases same : k = data.1
      · simp [same,held]
      · simp [same,Ne.symm same]
    exact ⟨_,_,by simp only [collectStored,CacheDB.get,held],gets,listed default (by rw [gets,held,if_pos rfl]; rfl) rfl⟩

theorem collectStoredSpec [Inhabited V] (hit stored : List (K × V)) (cache : CacheDB K V) :
    let res := collectStored hit (stored,cache)
    (∀ k, OrderedMap.get res.2 k = match OrderedMap.get cache k with
      | some c => some c
      | none => (hit.find? (·.1 == k)).map (fun e => ⟨some e.2,e.2,false,false⟩)) ∧
    ∀ k v, (k,v) ∈ res.1 → (k,v) ∈ stored ∨
      (k ∈ hit.map Prod.fst ∧ ∃ c, OrderedMap.get res.2 k = some c ∧ c.deleted = false) := by
  induction hit generalizing stored cache with
  | nil =>
    refine ⟨fun k => ?_,fun k v mem => Or.inl mem⟩
    simp only [collectStored,find?_nil,Option.map_none]
    cases OrderedMap.get cache k <;> rfl
  | cons data rest ih =>
    obtain ⟨stored',cache',step,gets',lists'⟩ := collectStoredCons data rest stored cache
    obtain ⟨gets,lists⟩ := ih stored' cache'
    rw [step]
    refine ⟨fun k => ?_,fun k v mem => ?_⟩
    · rw [gets k,gets' k]
      cases OrderedMap.get cache k with
      | some c => rfl
      | none => by_cases same : data.1 = k <;> simp [same]
    · rcases lists k v mem with old | ⟨inRest,got⟩
      · rcases lists' _ old with before | ⟨key,c,got,live⟩
        · exact .inl before
        · exact .inr ⟨mem_cons.mpr (.inl key),c,by rw [gets k,show k = data.1 from key,got],live⟩
      · exact .inr ⟨.tail _ inRest,got⟩

/-- What a scan lists for an entry of the store. -/
def storedValue [Inhabited V] (cache : CacheDB K V) (data : K × V) : Option (K × V) :=
  match cache.get data.1 with
  | .deleted => none
  | .present value => some (data.1, value)
  | .absent => some (data.1, default)

theorem collectStoredList [Inhabited V] {hit : List (K × V)} (distinct : hit.Pairwise (fun a b => a.1 ≠ b.1)) (stored : List (K × V))
    (cache : CacheDB K V) : (collectStored hit (stored,cache)).1 = stored ++ hit.filterMap (storedValue cache) := by
  induction hit generalizing stored cache with
  | nil => simp [collectStored]
  | cons data rest ih =>
    obtain ⟨other,tail⟩ := pairwise_cons.mp distinct
    cases read : cache.get data.1 with
    | deleted | present value => simp [collectStored,storedValue,read,ih tail]
    | absent =>
      have same : rest.filterMap (storedValue (cache.cache data.1 data.2)) = rest.filterMap (storedValue cache) := by
        refine filterMap_congr (fun e mem => ?_)
        simp [storedValue,CacheDB.get,CacheDB.cache,getSet,(other e mem).symm]
      simp [collectStored,storedValue,read,ih tail,same]

theorem collectStoredKeeps [Inhabited V] (coh : Coherent db)
    (held : ∀ e ∈ found, db.store.get e.1 = some e.2) (stored : List (K × V)) :
    Coherent {db with cache := (collectStored found (stored,db.cache)).2} ∧
      ∀ k, ({db with cache := (collectStored found (stored,db.cache)).2} : Database K V).view k = db.view k := by
  obtain ⟨gets,_⟩ := collectStoredSpec found stored db.cache
  have either : ∀ k c, OrderedMap.get (collectStored found (stored,db.cache)).2 k = some c → OrderedMap.get db.cache k = some c ∨
        OrderedMap.get db.cache k = none ∧ ∃ v, db.store.get k = some v ∧ c = ⟨some v,v,false,false⟩ := by
    intro k c got
    rw [gets k] at got
    cases old : OrderedMap.get db.cache k with
    | some c' => rw [old] at got; exact .inl got
    | none =>
      rw [old] at got
      obtain ⟨e,hit,rfl⟩ := Option.map_eq_some_iff.mp got
      have key : e.1 = k := by simpa using find?_some hit
      exact .inr ⟨rfl,e.2,key ▸ held e (mem_of_find?_eq_some hit),rfl⟩
  constructor
  · constructor <;> intro k c got <;> rcases either k c got with old | ⟨_,v,value,rfl⟩
    · exact coh.init k c old
    · exact value.symm
    · exact coh.kept k c old
    · exact fun _ => rfl
    · exact coh.clean k c old
    · exact fun _ _ w same => Option.some.inj same
  · intro k
    unfold view
    cases got : OrderedMap.get (collectStored found (stored,db.cache)).2 k with
    | some c =>
      rcases either k c got with old | ⟨old,v,value,rfl⟩
      · rw [old]
      · rw [old]
        exact value.symm
    | none =>
      have old : OrderedMap.get db.cache k = none := by
        cases old : OrderedMap.get db.cache k with
        | none => rfl
        | some c => rw [gets k,old] at got; cases got
      rw [old]

theorem iterateRangeSublist (store : OrderedMap K V) (start stop : K) (limit : Int) (rev : Bool) :
    (iterateRange store start stop limit rev).Sublist
      (if rev then (store.between start stop).reverse else store.between start stop) := by
  unfold iterateRange
  by_cases all : limit = -1
  · simp [all]
  · simpa [all] using take_sublist _ _

theorem iterateRangeMem {store} {start stop k : K} {v : V} {rev}
    (mem : (k,v) ∈ iterateRange store start stop limit rev) : store.get k = some v ∧ start ≤ k ∧ k ≤ stop := by
  have inside := (iterateRangeSublist store start stop limit rev).subset mem
  refine memBetween.mp ?_
  cases rev <;> simpa using inside

theorem memDataBetween {c : CacheDB K V} {start stop k v} : (k,v) ∈ c.dataBetween start stop ↔
      start ≤ k ∧ k ≤ stop ∧ ∃ e, OrderedMap.get c k = some e ∧ e.deleted = false ∧ e.value = v := by
  simp only [CacheDB.dataBetween,mem_map,mem_filter,Prod.exists]
  constructor
  · rintro ⟨k',e,⟨mem,live⟩,eq⟩
    obtain ⟨hit,low,high⟩ := memBetween.mp mem
    obtain ⟨rfl,rfl⟩ := eq
    exact ⟨low,high,e,hit,by simpa using live,rfl⟩
  · rintro ⟨low,high,e,hit,live,rfl⟩
    exact ⟨k,e,⟨memBetween.mpr ⟨hit,low,high⟩,by simp [live]⟩,rfl⟩

theorem dataBetweenSorted (c : CacheDB K V) (start stop : K) : (c.dataBetween start stop).Pairwise (fun a b => a.1 < b.1) := by
  unfold CacheDB.dataBetween
  rw [pairwise_map]
  exact (c.betweenSorted start stop).filter _

theorem insertionSortStrict {α : Type} {r : α → α → Prop} [DecidableRel r] [Std.Total r] [IsTrans α r] {xs es : List α}
    (strict : es.Pairwise (fun a b => r a b ∧ ¬r b a)) (perm : xs.Perm es) : xs.insertionSort r = es := by
  have sorted := (perm_insertionSort r xs).trans perm
  have apart := (sorted.pairwise_iff (R := fun a b => ¬(r a b ∧ r b a)) (fun one both => one both.symm)).mpr
    (strict.imp (fun one both => one.2 both.2))
  exact sorted.eq_of_pairwise (fun a b _ _ on back => absurd back.1 on.2)
    (((pairwise_insertionSort r xs).and apart).imp (fun ⟨on,one⟩ => ⟨on,fun back => one ⟨on,back⟩⟩)) strict

theorem mergeSortLimitPerm {cached stored es : List (K × V)} (rev : Bool) (limit : Int) (sorted : es.Pairwise (fun a b => a.1 < b.1))
    (perm : (cached ++ stored.filter (·.1 ∉ cached.map Prod.fst)).Perm es) :
    mergeSortLimit cached stored rev limit = let ordered := if rev then es.reverse else es
      if limit > -1 ∧ limit < ordered.length then ordered.take limit.toNat else ordered := by
  have strict := sorted.imp (fun {a b} less => (⟨le_of_lt less,not_le.mpr less⟩ : a.1 ≤ b.1 ∧ ¬b.1 ≤ a.1))
  unfold mergeSortLimit
  cases rev with
  | false => simp only [false_eq_true,if_false,insertionSortStrict strict perm]
  | true =>
    have swapped := insertionSortStrict (r := fun a b : K × V => b.1 ≤ a.1) (pairwise_reverse.mpr strict) (perm.trans (reverse_perm _).symm)
    simp only [if_true,swapped]

theorem mergeSortLimitCached {cached stored : List (K × V)} (rev : Bool) (limit : Int)
    (sorted : cached.Pairwise (fun a b => a.1 < b.1)) (covered : ∀ e ∈ stored, e.1 ∈ cached.map Prod.fst) :
    mergeSortLimit cached stored rev limit = let ordered := if rev then cached.reverse else cached
      if limit > -1 ∧ limit < ordered.length then ordered.take limit.toNat else ordered := by
  refine mergeSortLimitPerm rev limit sorted (Perm.of_eq ?_)
  rw [append_right_eq_self,filter_eq_nil_iff]
  intro e mem
  simpa using covered e mem

theorem memMergeSort {cached stored : List (K × V)} {rev e} : e ∈ mergeSortLimit cached stored rev (-1) ↔
    e ∈ cached ∨ e ∈ stored ∧ e.1 ∉ cached.map Prod.fst := by
  cases rev <;> simp [mergeSortLimit,mem_insertionSort]

theorem findCached {store : OrderedMap K V} {found : List (K × V)} {k v} (held : ∀ e ∈ found, store.get e.1 = some e.2) :
    (∃ c : CacheValue V, (found.find? (·.1 == k)).map (fun e => ⟨some e.2,e.2,false,false⟩) = some c ∧
      c.deleted = false ∧ c.value = v) ↔ (k,v) ∈ found := by
  simp only [Option.map_eq_some_iff]
  constructor
  · rintro ⟨_,⟨data,hit,rfl⟩,_,rfl⟩
    have key : data.1 = k := by simpa using find?_some hit
    exact key ▸ mem_of_find?_eq_some hit
  · intro mem
    cases hit : found.find? (·.1 == k) with
    | none => exact absurd (find?_eq_none.mp hit (k,v) mem) (by simp)
    | some data =>
      have key : data.1 = k := by simpa using find?_some hit
      have other := held _ (mem_of_find?_eq_some hit)
      rw [key,held _ mem] at other
      exact ⟨_,⟨data,rfl,rfl⟩,rfl,(Option.some.inj other).symm⟩

theorem collectedEntry [Inhabited V] {db : Database K V} {hit k v} (held : ∀ e ∈ hit, db.store.get e.1 = some e.2) :
    (∃ c, OrderedMap.get (collectStored hit ([],db.cache)).2 k = some c ∧ c.deleted = false ∧ c.value = v) ↔
      db.view k = some v ∧ (OrderedMap.get db.cache k ≠ none ∨ (k,v) ∈ hit) := by
  rw [(collectStoredSpec hit [] db.cache).1 k]
  unfold view
  cases OrderedMap.get db.cache k with
  | some c => cases gone : c.deleted <;> simp [gone]
  | none =>
    rw [findCached held]
    simpa using held (k,v)

theorem collectedBetween [Inhabited V] {db : Database K V} {start stop hit}
    (held : ∀ e ∈ hit, db.store.get e.1 = some e.2 ∧ start ≤ e.1 ∧ e.1 ≤ stop) :
    let res := collectStored hit ([],db.cache)
    (∀ k v, (k,v) ∈ res.2.dataBetween start stop ↔
      start ≤ k ∧ k ≤ stop ∧ db.view k = some v ∧ (OrderedMap.get db.cache k ≠ none ∨ (k,v) ∈ hit)) ∧
      ∀ e ∈ res.1, e.1 ∈ (res.2.dataBetween start stop).map Prod.fst := by
  refine ⟨fun k v => ?_,fun e mem => ?_⟩
  · rw [memDataBetween,collectedEntry (fun e mem => (held e mem).1)]
  · rcases (collectStoredSpec hit [] db.cache).2 e.1 e.2 mem with old | ⟨met,c,got,live⟩
    · cases old
    obtain ⟨data,inside,key⟩ := mem_map.mp met
    obtain ⟨_,low,high⟩ := held data inside
    rw [key] at low high
    exact mem_map.mpr ⟨(e.1,c.value),memDataBetween.mpr ⟨low,high,c,got,live,rfl⟩,rfl⟩

theorem rangeList [Inhabited V] (db : Database K V) (start stop : K) (limit : Int) (rev : Bool) :
    ∃ cached : List (K × V), cached.Pairwise (fun a b => a.1 < b.1) ∧
      (∀ k v, (k,v) ∈ cached ↔ start ≤ k ∧ k ≤ stop ∧ db.view k = some v ∧
        (OrderedMap.get db.cache k ≠ none ∨ (k,v) ∈ iterateRange db.store start stop limit rev)) ∧
      (db.range start stop limit rev).1 = let ordered := if rev then cached.reverse else cached
        if limit > -1 ∧ limit < ordered.length then ordered.take limit.toNat else ordered := by
  have held : ∀ e ∈ iterateRange db.store start stop limit rev, _ := fun e mem => iterateRangeMem mem
  obtain ⟨mems,covered⟩ := collectedBetween held
  exact ⟨_,dataBetweenSorted _ start stop,mems,mergeSortLimitCached rev limit (dataBetweenSorted _ start stop) covered⟩

theorem rangeAll [Inhabited V] (db : Database K V) (start stop : K) (rev : Bool) :
    ∃ es : List (K × V), es.Pairwise (fun a b => a.1 < b.1) ∧
      (∀ k v, (k,v) ∈ es ↔ start ≤ k ∧ k ≤ stop ∧ db.view k = some v) ∧
      (db.range start stop (-1) rev).1 = if rev then es.reverse else es := by
  obtain ⟨es,sorted,mems,eq⟩ := rangeList db start stop (-1) rev
  refine ⟨es,sorted,fun k v => (mems k v).trans ?_,eq.trans (by simp)⟩
  refine and_congr_right (fun low => and_congr_right (fun high => and_iff_left_of_imp (fun seen => ?_)))
  cases cached : OrderedMap.get db.cache k with
  | some c => exact .inl nofun
  | none =>
    have stored := memBetween.mpr ⟨show db.store.get k = some v by simpa [view,cached] using seen,low,high⟩
    exact .inr (by cases rev <;> simpa [iterateRange] using stored)

/-- Deleted persisted keys lie below a live key of the interval. A scan for the
greatest key with limit one is only then certain to find it. -/
def FloorSafe (db : Database K V) (start stop : K) : Prop :=
  ∀ d, start ≤ d → d ≤ stop → db.store.get d ≠ none → db.view d = none →
    ∃ m v, db.view m = some v ∧ d < m ∧ m ≤ stop

structure IsFloor (db : Database K V) (start stop k : K) (v : V) : Prop where
  held : db.view k = some v
  low : start ≤ k
  high : k ≤ stop
  greatest : ∀ k' v', db.view k' = some v' → start ≤ k' → k' ≤ stop → k' ≤ k

theorem lastOf {xs : List (K × V)} (sorted : xs.Pairwise (fun a b => a.1 < b.1)) :
    xs = [] ∨ ∃ e rest, xs.reverse = e::rest ∧ e ∈ xs ∧ ∀ e' ∈ xs, e'.1 ≤ e.1 := by
  cases first : xs.reverse with
  | nil => exact .inl (reverse_eq_nil_iff.mp first)
  | cons e rest =>
    have ordered := pairwise_reverse.mpr sorted
    rw [first] at ordered
    refine .inr ⟨e,rest,rfl,by rw [← mem_reverse,first]; exact .head _,fun e' mem => ?_⟩
    rw [← mem_reverse,first] at mem
    rcases mem_cons.mp mem with rfl | later
    · exact le_rfl
    · exact le_of_lt ((pairwise_cons.mp ordered).1 _ later)

theorem floorExists [Inhabited V] {start stop k : K} {v : V} (held : db.view k = some v) (low : start ≤ k) (high : k ≤ stop) :
    ∃ k v, IsFloor db start stop k v := by
  obtain ⟨es,sorted,mems,_⟩ := rangeAll db start stop true
  rcases lastOf sorted with rfl | ⟨e,_,_,inside,greatest⟩
  · cases (mems k v).mpr ⟨low,high,held⟩
  · obtain ⟨topLow,topHigh,topHeld⟩ := (mems e.1 e.2).mp inside
    exact ⟨e.1,e.2,topHeld,topLow,topHigh,fun k' v' held' low' high' => greatest _ ((mems k' v').mpr ⟨low',high',held'⟩)⟩

theorem rangeFloor [Inhabited V] {db : Database K V} {start stop : K} (safe : FloorSafe db start stop) :
    ((db.range start stop 1 true).1 = [] ∧ ∀ k v, db.view k = some v → start ≤ k → stop < k) ∨
    ∃ k v, (db.range start stop 1 true).1 = [(k,v)] ∧ IsFloor db start stop k v := by
  obtain ⟨cached,sorted,mems,eq⟩ := rangeList db start stop 1 true
  have topCached : ∀ k v, IsFloor db start stop k v → (k,v) ∈ cached := by
    intro k v top
    refine (mems k v).mpr ⟨top.low,top.high,top.held,?_⟩
    cases hit : OrderedMap.get db.cache k with
    | some c => exact .inl nofun
    | none =>
      have held : db.store.get k = some v := by simpa [view,hit] using top.held
      have stored := memBetween.mpr ⟨held,top.low,top.high⟩
      rcases lastOf (db.store.betweenSorted start stop) with nil | ⟨e,rest,first,inside,greatest⟩
      · rw [nil] at stored
        cases stored
      have listed : iterateRange db.store start stop 1 true = [e] := by simp [iterateRange,first]
      obtain ⟨atTop,low,high⟩ := memBetween.mp inside
      rcases lt_or_eq_of_le (greatest _ stored) with below | same
      · exfalso
        cases seen : db.view e.1 with
        | some w => exact absurd (top.greatest e.1 w seen low high) (not_le.mpr below)
        | none =>
          obtain ⟨m,w,live,beyond,bound⟩ := safe e.1 low high (by simp [atTop]) seen
          exact absurd (below.trans beyond) (not_lt.mpr (top.greatest m w live (low.trans beyond.le) bound))
      · rw [← same,held] at atTop
        rw [listed]
        exact .inr (mem_singleton.mpr (Prod.ext same (Option.some.inj atTop)))
  rcases lastOf sorted with rfl | ⟨e,rest,first,inside,greatest⟩
  · refine .inl ⟨by rw [eq]; rfl,fun k v seen low => ?_⟩
    by_contra within
    obtain ⟨k',v',top⟩ := floorExists seen low (not_lt.mp within)
    cases topCached k' v' top
  · obtain ⟨low,high,seen,_⟩ := (mems e.1 e.2).mp inside
    refine .inr ⟨e.1,e.2,?_,seen,low,high,fun k' v' seen' low' high' => ?_⟩
    · rw [eq]
      simp only [if_true,first]
      cases rest with
      | nil => rfl
      | cons _ rest => exact if_pos ⟨by decide,by rw [length_cons,length_cons]; omega⟩
    · obtain ⟨k,v,top⟩ := floorExists seen' low' high'
      exact (top.greatest k' v' seen' low' high').trans (greatest _ (topCached k v top))

end Database
end
end LiskEngine.Diffdb
