import LiskEngine.DiffdbHandles

/-! Scans over byte strings, those of the store in both directions and those of the overlay
through a view. -/
namespace LiskEngine.Diffdb
open List OrderedMap

theorem upperBoundAbove (bounded : upperBound b = some bound) : b < bound := by
  unfold upperBound at bounded
  have below := head?_dropWhile_not (· == 255) b.reverse
  have whole := takeWhile_append_dropWhile (p := fun x => x == 255) (l := b.reverse)
  cases split : b.reverse.dropWhile (· == 255) with
  | nil => rw [split] at bounded; cases bounded
  | cons x rest =>
    rw [split] at bounded below whole
    cases bounded
    have other : x ≠ 255 := by simpa using below
    have same := congrArg List.reverse whole
    rw [reverse_reverse,reverse_append,reverse_cons,append_assoc] at same
    rw [← same,reverse_cons,appendLtIff]
    refine cons_lt_cons_iff.mpr (.inl (UInt8.lt_iff_toNat_lt.mpr ?_))
    have apart : x.toNat ≠ 255 := fun top => other (UInt8.toNat_inj.mp top)
    have small := x.toNat_lt
    rw [UInt8.toNat_add]
    simp only [UInt8.reduceToNat]
    omega

theorem reverseScanIff (store : OrderedMap Bytes Bytes) (start stop : Bytes) (ordered : start ≤ stop) :
    iterateBytes store start stop (-1) false = store.between start stop ∧
      (iterateBytes store start stop (-1) true = (iterateBytes store start stop (-1) false).reverse ↔
        (∀ bound ∈ upperBound stop, ∀ e ∈ store.entries, stop < e.1 → bound ≤ e.1) ∧
        (upperBound stop = none → ∀ e ∈ store.entries, start ≤ e.1 → stop < e.1)) := by
  refine ⟨rfl,?_⟩
  simp only [iterateBytes,if_true,Bool.false_eq_true,if_false]
  cases bounded : upperBound stop with
  | none =>
    simp only [eq_comm (a := []),reverse_eq_nil_iff,OrderedMap.between,filter_eq_nil_iff]
    simp
  | some bound =>
    have above := upperBoundAbove bounded
    simp only [reverse_inj,Option.mem_some_iff,forall_eq',reduceCtorEq,false_implies,and_true,OrderedMap.between]
    constructor
    · intro same e member behind
      by_contra below
      have listed : e ∈ store.entries.filter (fun e => start ≤ e.1 ∧ e.1 < bound) :=
        mem_filter.mpr ⟨member,decide_eq_true ⟨ordered.trans behind.le,not_le.mp below⟩⟩
      rw [same] at listed
      exact not_lt.mpr (of_decide_eq_true (mem_filter.mp listed).2).2 behind
    · intro absent
      refine filter_congr (fun e member => decide_eq_decide.mpr (and_congr_right (fun _ => ?_)))
      refine ⟨fun below => ?_,fun inside => inside.trans_lt above⟩
      by_contra behind
      exact not_le.mpr below (absent e member (not_le.mp behind))

theorem reverseScanSample : iterateBytes sampleStore [1] [1,5] (-1) true = [([1,5], [50])] :=
  (((reverseScanIff sampleStore [1] [1,5] (by decide)).2.mpr
    ⟨by decide +kernel,by decide +kernel⟩).trans (by decide +kernel))

theorem reverseScanDiffers :
    iterateBytes sampleStore [1] [1] (-1) true = [([1,6], [60]),([1,5], [50])] ∧ iterateBytes sampleStore [1] [1] (-1) false = [] ∧
      iterateBytes sampleStore [1] [255] (-1) true = [] ∧
      iterateBytes sampleStore [1] [255] (-1) false = [([1,5], [50]),([1,6], [60])] := by
  decide +kernel

theorem prefixBetween {start a b k : Bytes} (low : start ++ a ≤ k) (high : k ≤ start ++ b) : start <+: k := by
  induction start generalizing k with
  | nil => exact nil_prefix
  | cons x rest ih =>
    cases k with
    | nil => exact absurd low (by simp)
    | cons y k =>
      rw [← not_lt,cons_append,cons_lt_cons_iff,not_or] at low high
      obtain rfl : y = x := le_antisymm (not_lt.mp high.1) (not_lt.mp low.1)
      exact prefix_cons_inj _ |>.mpr (ih (not_lt.mp (fun smaller => low.2 ⟨rfl,smaller⟩)) (not_lt.mp (fun more => high.2 ⟨rfl,more⟩)))

namespace View

/-- The entries of a map that a view has, under its own keys. -/
def shown (view : View) (m : OrderedMap Bytes Bytes) : List (Bytes × Bytes) :=
  (m.entries.filter (fun e => view.keyPrefix.isPrefixOf e.1)).map view.strip

theorem strippedShown {view : View} {es : List (Bytes × Bytes)} {m} (sorted : es.Pairwise (fun a b => a.1 < b.1))
    (begins : ∀ e ∈ es, view.keyPrefix <+: e.1) {p : Bytes → Bool}
    (mems : ∀ k v, (view.getKey k,v) ∈ es ↔ p k = true ∧ m.get (view.getKey k) = some v) :
    es.map view.strip = (view.shown m).filter (fun e => p e.1) := by
  have all : ∀ e ∈ m.entries.filter (fun e => view.keyPrefix.isPrefixOf e.1), view.keyPrefix <+: e.1 :=
    fun e mem => isPrefixOf_iff_prefix.mp (mem_filter.mp mem).2
  refine ascendingEq (view.strippedSorted sorted begins) ((view.strippedSorted (m.sorted.filter _) all).filter _) (fun e => ?_)
  rw [mem_filter,show (e ∈ view.shown m ↔ _) from memStripped all,show (e ∈ es.map view.strip ↔ _) from memStripped begins,
    mems,mem_filter,memIffGet]
  simp [getKey,and_comm]

end View

theorem takeFilterIff {p : α → Bool} {xs : List α} : (xs.filter p).take n = xs.take n ↔ ∀ x ∈ xs.take n, p x = true := by
  refine ⟨fun same x mem => ?_,fun all => ?_⟩
  · rw [← same] at mem
    exact (mem_filter.mp (mem_of_mem_take mem)).2
  · induction xs generalizing n with
    | nil => rfl
    | cons x rest ih =>
      cases n with
      | zero => rfl
      | succ n =>
        simp only [take_succ_cons,forall_mem_cons] at all
        rw [filter_cons_of_pos all.1,take_succ_cons,take_succ_cons,ih all.2]

theorem listedFilterIff {p : Bytes × Bytes → Bool} {es : List (Bytes × Bytes)} (limit : Int) (reverse : Bool) :
    listed (es.filter p) limit reverse = listed es limit reverse ↔ ∀ e ∈ listed es limit reverse, p e = true := by
  have ordered : inOrder (es.filter p) reverse = (inOrder es reverse).filter p := by
    cases reverse <;> simp [inOrder]
  simp only [listed,ordered]
  split
  · exact filter_eq_self
  · exact takeFilterIff

theorem listedMap (f : Bytes × Bytes → Bytes × Bytes) (es : List (Bytes × Bytes)) (limit : Int) (reverse : Bool) :
    listed (es.map f) limit reverse = (listed es limit reverse).map f := by
  have ordered : inOrder (es.map f) reverse = (inOrder es reverse).map f := by
    cases reverse <;> simp [inOrder]
  simp only [listed,ordered]
  split
  · rfl
  · exact map_take.symm

/-- The entries of a map that a scan of a view is to list. -/
def View.between (view : View) (m : OrderedMap Bytes Bytes) (start stop : Bytes) (limit : Int) (reverse : Bool) : List (Bytes × Bytes) :=
  listed ((view.shown m).filter (fun e => start ≤ e.1 ∧ e.1 ≤ stop)) limit reverse

theorem View.getKeyLe {view : View} {a b} : view.getKey a ≤ view.getKey b ↔ a ≤ b := by
  rw [← not_lt,← not_lt]
  exact not_congr (appendLtIff _ _ _)

theorem View.shownBetween (view : View) (m : OrderedMap Bytes Bytes) (start stop : Bytes) :
    (view.shown m).filter (fun e => start ≤ e.1 ∧ e.1 ≤ stop) = (m.between (view.getKey start) (view.getKey stop)).map view.strip := by
  refine (strippedShown (p := fun k => start ≤ k ∧ k ≤ stop) (m.betweenSorted _ _) (fun e mem => ?_) (fun k v => ?_)).symm
  · exact prefixBetween (memBetween.mp mem).2.1 (memBetween.mp mem).2.2
  · simp [memBetween,getKeyLe,and_comm]

/-- The reverse scan of the store mirrors its forward scan between two keys. -/
def Mirrors (store : OrderedMap Bytes Bytes) (start stop : Bytes) : Prop :=
  iterateBytes store start stop (-1) true = (iterateBytes store start stop (-1) false).reverse

theorem iterateBytesLimit (store : OrderedMap Bytes Bytes) (start stop : Bytes) (limit : Int) (reverse : Bool) :
    iterateBytes store start stop limit reverse = if limit = -1 then iterateBytes store start stop (-1) reverse
      else (iterateBytes store start stop (-1) reverse).take (max 1 limit.toNat) := by
  simp only [iterateBytes,if_true]

theorem iterateBytesAll {store start stop reverse} (mirrors : reverse = true → Mirrors store start stop) :
    iterateBytes store start stop (-1) reverse = inOrder (store.between start stop) reverse := by
  cases reverse with
  | false => rfl
  | true => exact mirrors rfl

theorem iterateBytesWithin {store start stop reverse limit e} (mirrors : reverse = true → Mirrors store start stop)
    (mem : e ∈ iterateBytes store start stop limit reverse) : store.get e.1 = some e.2 ∧ start ≤ e.1 ∧ e.1 ≤ stop := by
  have all : e ∈ iterateBytes store start stop (-1) reverse := by
    rw [iterateBytesLimit] at mem
    exact memLimited mem
  rw [iterateBytesAll mirrors] at all
  exact memBetween.mp (memInOrder.mp all)

theorem View.rangeIff {view : View} {db : Database Bytes Bytes} {m} (shows : ∀ k, db.view k = m.get k) {start stop limit reverse}
    (mirrors : reverse = true → Mirrors db.store (view.getKey start) (view.getKey stop)) :
    (view.range db start stop limit reverse).1 = view.between m start stop limit reverse ↔
      ∀ e ∈ view.between m start stop limit reverse, OrderedMap.get db.cache (view.getKey e.1) ≠ none ∨
        view.getKey e.1 ∈ (iterateBytes db.store (view.getKey start) (view.getKey stop) limit reverse).map Prod.fst := by
  have held : ∀ e ∈ iterateBytes db.store (view.getKey start) (view.getKey stop) limit reverse, _ := fun e mem => iterateBytesWithin mirrors mem
  obtain ⟨mems,covered⟩ := Database.collectedBetween held
  simp only [View.range]
  generalize iterateBytes db.store (view.getKey start) (view.getKey stop) limit reverse = scan at *
  have sorted := Database.dataBetweenSorted (Database.collectStored scan ([], db.cache)).2 (view.getKey start) (view.getKey stop)
  have begins := fun e mem => prefixBetween ((mems (Prod.fst e) e.2).mp mem).1 ((mems e.1 e.2).mp mem).2.1
  have met : ∀ k v, db.view k = some v →
      (OrderedMap.get db.cache k ≠ none ∨ (k,v) ∈ scan ↔ OrderedMap.get db.cache k ≠ none ∨ k ∈ scan.map Prod.fst) := by
    intro k v seen
    refine or_congr_right' (fun fresh => ⟨fun mem => mem_map_of_mem mem,fun mem => ?_⟩)
    obtain ⟨e,inside,rfl⟩ := mem_map.mp mem
    have stored : db.store.get e.1 = some v := by simpa [Database.view,not_not.mp fresh] using seen
    rw [(held e inside).1] at stored
    exact Option.some.inj stored ▸ inside
  have entries := strippedShown (m := m) (p := fun k =>
    decide (OrderedMap.get db.cache (view.getKey k) ≠ none ∨ view.getKey k ∈ scan.map Prod.fst) && decide (start ≤ k ∧ k ≤ stop))
    sorted begins (fun k v => by
      rw [mems,getKeyLe,getKeyLe,← shows,Bool.and_eq_true,decide_eq_true_iff,decide_eq_true_iff]
      have same := met (view.getKey k) v
      tauto)
  rw [view.mergeStripped sorted begins covered reverse limit,entries,← filter_filter]
  exact (listedFilterIff limit reverse).trans (by simp only [decide_eq_true_eq,between])

theorem takeReaches {R : α → α → Prop} [Std.Asymm R] {xs ys : List α} (first : xs.Pairwise R) (second : ys.Pairwise R) {m n : Nat}
    (smaller : n ≤ m) (within : ∀ x ∈ xs.take m, x ∈ ys) {y} (early : y ∈ ys.take n) (mem : y ∈ xs) : y ∈ xs.take m := by
  by_contra out
  rw [← take_append_drop m xs] at first mem
  have late := (mem_append.mp mem).resolve_left out
  have before : ∀ x ∈ xs.take m, R x y := fun x taken => (pairwise_append.mp first).2.2 x taken y late
  obtain ⟨front,back,split⟩ := append_of_mem early
  have whole : ys = front ++ y :: (back ++ ys.drop n) := by
    rw [← cons_append,← append_assoc,← split,take_append_drop]
  have ordered := (pairwise_append.mp (whole ▸ second)).2.1
  have sub : xs.take m ⊆ front := by
    intro x taken
    have inside := within x taken
    rw [whole,mem_append,mem_cons] at inside
    rcases inside with inside | rfl | behind
    · exact inside
    · exact absurd (before _ taken) (Std.Asymm.asymm _ _ (before _ taken))
    · exact absurd (before x taken) (Std.Asymm.asymm _ _ ((pairwise_cons.mp ordered).1 x behind))
  have nodup : (xs.take m).Nodup := (pairwise_append.mp first).1.imp (fun one same => by
    subst same
    exact Std.Asymm.asymm _ _ one one)
  have counted := (subperm_of_subset nodup sub).length_le
  have cut := congrArg length split
  have found := length_pos_of_mem late
  simp only [length_take,length_append,length_cons,length_drop] at counted cut found
  omega

/-- The key order of a scan. -/
def Precedes (reverse : Bool) (a b : Bytes) : Prop := if reverse then b < a else a < b

instance (reverse : Bool) : Std.Asymm (Precedes reverse) :=
  ⟨fun a b on back => by cases reverse <;> exact lt_asymm on back⟩

theorem orderedPrecedes {es : List (Bytes × Bytes)} (sorted : es.Pairwise (fun a b => a.1 < b.1)) (reverse : Bool) :
    ((inOrder es reverse).map Prod.fst).Pairwise (Precedes reverse) := by
  rw [pairwise_map]
  cases reverse with
  | false => exact sorted
  | true => exact pairwise_reverse.mpr sorted

theorem View.scanReaches {view : View} {db : Database Bytes Bytes} {m} (shows : ∀ k, db.view k = m.get k) {start stop limit reverse}
    (mirrors : reverse = true → Mirrors db.store (view.getKey start) (view.getKey stop))
    (kept : limit = -1 ∨ 0 ≤ limit ∧
      ∀ e ∈ iterateBytes db.store (view.getKey start) (view.getKey stop) limit reverse, m.get e.1 ≠ none) :
    ∀ e ∈ view.between m start stop limit reverse, OrderedMap.get db.cache (view.getKey e.1) ≠ none ∨
      view.getKey e.1 ∈ (iterateBytes db.store (view.getKey start) (view.getKey stop) limit reverse).map Prod.fst := by
  intro e mem
  refine (em _).symm.imp id (fun fresh => ?_)
  rw [between,shownBetween,listedMap] at mem
  obtain ⟨e,early,rfl⟩ := mem_map.mp mem
  obtain ⟨held,low,high⟩ := memBetween.mp (memListed early)
  have key : view.getKey (view.strip e).1 = e.1 := congrArg Prod.fst (getKeyStrip (prefixBetween low high))
  rw [key] at fresh ⊢
  have stored : db.store.get e.1 = some e.2 := by simpa [Database.view,fresh] using (shows e.1).trans held
  have met : e.1 ∈ (inOrder (db.store.between (view.getKey start) (view.getKey stop)) reverse).map Prod.fst :=
    mem_map_of_mem (memInOrder.mpr (memBetween.mpr ⟨stored,low,high⟩))
  rw [iterateBytesLimit,iterateBytesAll mirrors] at kept ⊢
  rcases kept with all | ⟨natural,kept⟩
  · rwa [if_pos all]
  rw [if_neg (by omega)] at kept ⊢
  rw [listed,if_neg (by omega)] at early
  rw [map_take]
  refine takeReaches (orderedPrecedes (db.store.betweenSorted _ _) reverse) (orderedPrecedes (m.betweenSorted _ _) reverse)
    (le_max_right 1 limit.toNat) (fun k mem => ?_) (map_take ▸ mem_map_of_mem early) met
  rw [← map_take] at mem
  obtain ⟨data,taken,rfl⟩ := mem_map.mp mem
  obtain ⟨v,live⟩ := Option.ne_none_iff_exists'.mp (kept data taken)
  have within := memBetween.mp (memInOrder.mp (mem_of_mem_take taken))
  exact mem_map_of_mem (f := Prod.fst) (a := (data.1,v)) (memInOrder.mpr (memBetween.mpr ⟨live,within.2⟩))

section
variable (store : OrderedMap Bytes Bytes) (steps : List (View × Operation)) (view : View)

/-- The limit cuts the scan of the store before the deleted keys are left out. -/
theorem overlayRange (start stop : Bytes) (limit : Int) (reverse : Bool)
    (mirrors : reverse = true → Mirrors store (view.getKey start) (view.getKey stop)) :
    let db := steps.foldl perform (Database.new store)
    let scan := iterateBytes store (view.getKey start) (view.getKey stop) limit reverse
    let expected := view.between (steps.foldl ideal store) start stop limit reverse
    ((view.range db start stop limit reverse).1 = expected ↔
      ∀ e ∈ expected, OrderedMap.get db.cache (view.getKey e.1) ≠ none ∨ view.getKey e.1 ∈ scan.map Prod.fst) ∧
    (limit = -1 ∨ 0 ≤ limit ∧ (∀ e ∈ scan, (steps.foldl ideal store).get e.1 ≠ none) →
      (view.range db start stop limit reverse).1 = expected) := by
  have shows := (newShows store).run steps
  intro db scan expected
  have same := @View.rangeIff view db _ shows.view start stop limit reverse (by rwa [shows.store])
  have reaches := @View.scanReaches view db _ shows.view start stop limit reverse (by rwa [shows.store])
  rw [shows.store] at same reaches
  exact ⟨same,fun kept => same.mpr (reaches kept)⟩

/-- The prefix of the view is missing where the cached keys are selected. Nothing is wrong where the cached keys that
start with the given one are in the view, and the entries of the view that do not were found by the scan of the store. -/
theorem overlayIterate (start : Bytes) (reverse : Bool) :
    let db := steps.foldl perform (Database.new store)
    let shown := steps.foldl ideal store
    let entries := (view.shown shown).filter (fun e => start.isPrefixOf e.1)
    let right := (view.iterate db start (-1) reverse).map Prod.fst = some (if reverse then entries.reverse else entries)
    let clear := (∀ k v, OrderedMap.get db.cache k ≠ none → shown.get k = some v → start <+: k → view.getKey start <+: k) ∧
      ∀ k v, shown.get k = some v → view.getKey start <+: k →
        start <+: k ∨ store.get k ≠ none ∧ (OrderedMap.get db.cache k ≠ none ∨ v = [])
    (clear → right) ∧ ((∀ k v, OrderedMap.get db.cache k ≠ none → shown.get k = some v → start <+: k →
      view.strip (k,v) ∈ entries → view.getKey start <+: k) → right → clear) := by
  intro db shown entries right clear
  have shows : Shows store shown db := (newShows store).run steps
  let es := shown.entries.filter (fun e => (view.getKey start).isPrefixOf e.1)
  have mems : ∀ k v, (k,v) ∈ es ↔ view.getKey start <+: k ∧ db.view k = some v := by
    simp [es,memIffGet,shows.view,and_comm]
  have sorted : es.Pairwise (fun a b => a.1 < b.1) := shown.sorted.filter _
  have same : es.map view.strip = entries := View.strippedShown (p := fun k => start.isPrefixOf k) sorted
    (fun e mem => (prefix_append _ _).trans ((mems _ _).mp mem).1)
    (fun k v => by simp [mems,View.getKey,shows.view,prefix_append_right_inj])
  constructor
  · rintro ⟨foreign,found⟩
    have right := @View.iterateRight view db start reverse es sorted mems (fun k v => shows.view k ▸ foreign k v)
      (fun e mem => shows.store ▸ found e.1 e.2 (shows.view e.1 ▸ ((mems _ _).mp mem).2) ((mems _ _).mp mem).1)
    rwa [same] at right
  · intro apart right
    obtain ⟨foreign,found⟩ := @View.iterateConverse view db start reverse es mems (fun k v => by rw [shows.view k,same]; exact apart k v)
      (by rw [same]; exact right)
    refine ⟨fun k v => shows.view k ▸ foreign k v,fun k v held begins => ?_⟩
    exact shows.store ▸ found (k,v) ((mems _ _).mpr ⟨begins,(shows.view k).trans held⟩)

end

theorem overlayRangeSample : ((⟨[1]⟩ : View).range (sampleSteps.foldl perform (Database.new sampleStore)) [0] [6] 1 false).1 = [([2,7], [9])] :=
  ((overlayRange sampleStore sampleSteps ⟨[1]⟩ [0] [6] 1 false nofun).1.mpr (by decide +kernel)).trans (by decide +kernel)

theorem limitMissesEntries :
    ((⟨[]⟩ : View).range ([((⟨[]⟩ : View), Operation.del [1,5])].foldl perform (Database.new sampleStore)) [0] [9] 1 false).1 = [] ∧
      ((⟨[]⟩ : View).shown ([((⟨[]⟩ : View), Operation.del [1,5])].foldl ideal sampleStore)).filter
        (fun e => [0] ≤ e.1 ∧ e.1 ≤ [9]) = [([1,6], [60])] := by
  decide +kernel

theorem cachedEntriesMissed :
    ((⟨[1]⟩ : View).iterate ([((⟨[1]⟩ : View), Operation.set [5,7] [9])].foldl perform (Database.new sampleStore)) [5] (-1) false).map
      Prod.fst = some [([5], [])] ∧
      ((⟨[1]⟩ : View).shown ([((⟨[1]⟩ : View), Operation.set [5,7] [9])].foldl ideal sampleStore)).filter
        (fun e => [5].isPrefixOf e.1) = [([5], [50]),([5,7], [9])] := by
  decide +kernel

end LiskEngine.Diffdb
