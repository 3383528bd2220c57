import LiskEngine.DiffdbRange
import LiskEngine.CodecRoundTrip

/-! Views of one overlay over byte strings. A view is a key in front of which every key is
put; all views share the cache. -/
namespace LiskEngine.Diffdb
open Codec List OrderedMap Schema Database

/-- The least byte string above everything that starts with `b`, if there is one. -/
def upperBound (b : Bytes) : Option Bytes :=
  match b.reverse.dropWhile (fun x => x == 255) with
  | [] => none
  | x :: rest => some ((x + 1) :: rest).reverse

/-- A reverse scan starts below the upper bound of its end, so it also meets keys
that continue the end; where there is no upper bound it meets nothing. -/
def iterateBytes (store : OrderedMap Bytes Bytes) (start stop : Bytes) (limit : Int) (reverse : Bool) :
    List (Bytes × Bytes) :=
  let found :=
    if reverse then
      match upperBound stop with
      | none => []
      | some bound => (store.entries.filter (fun e => start ≤ e.1 ∧ e.1 < bound)).reverse
    else store.between start stop
  if limit = -1 then found else found.take (max 1 limit.toNat)

structure View where
  keyPrefix : Bytes
  deriving DecidableEq, Repr

namespace View

def withPrefix (view : View) (more : Bytes) : View := ⟨view.keyPrefix ++ more⟩

def getKey (view : View) (key : Bytes) : Bytes := view.keyPrefix ++ key

def strip (view : View) (data : Bytes × Bytes) : Bytes × Bytes := (data.1.drop view.keyPrefix.length, data.2)

def get (view : View) (db : Database Bytes Bytes) (key : Bytes) : Option Bytes × Database Bytes Bytes :=
  db.get (view.getKey key)

def has (view : View) (db : Database Bytes Bytes) (key : Bytes) : Bool × Database Bytes Bytes :=
  let (found, db) := view.get db key
  (found.isSome, db)

def set (view : View) (db : Database Bytes Bytes) (key value : Bytes) : Database Bytes Bytes :=
  db.set (view.getKey key) value

def del (view : View) (db : Database Bytes Bytes) (key : Bytes) : Database Bytes Bytes := db.del (view.getKey key)

def range (view : View) (db : Database Bytes Bytes) (start stop : Bytes) (limit : Int) (reverse : Bool) :
    List (Bytes × Bytes) × Database Bytes Bytes :=
  let low := view.getKey start
  let high := view.getKey stop
  let (stored, cache) := Database.collectStored (iterateBytes db.store low high limit reverse) ([], db.cache)
  (Database.mergeSortLimit ((cache.dataBetween low high).map view.strip) (stored.map view.strip) reverse limit,
    {db with cache := cache})

end View

inductive Operation where
  | get (key : Bytes)
  | has (key : Bytes)
  | set (key value : Bytes)
  | del (key : Bytes)
  | range (start stop : Bytes) (limit : Int) (reverse : Bool)
  deriving DecidableEq, Repr

def perform (db : Database Bytes Bytes) (step : View × Operation) : Database Bytes Bytes :=
  match step.2 with
  | .get key => (step.1.get db key).2
  | .has key => (step.1.has db key).2
  | .set key value => step.1.set db key value
  | .del key => step.1.del db key
  | .range start stop limit reverse => (step.1.range db start stop limit reverse).2

def ideal (store : OrderedMap Bytes Bytes) (step : View × Operation) : OrderedMap Bytes Bytes :=
  match step.2 with
  | .set key value => store.set (step.1.getKey key) value
  | .del key => store.del (step.1.getKey key)
  | _ => store

theorem memLimited {hit : List (Bytes × Bytes)} {limit : Int} (mem : e ∈ if limit = -1 then hit else hit.take (max 1 limit.toNat)) :
    e ∈ hit := by
  split at mem
  · exact mem
  · exact mem_of_mem_take mem

theorem iterateBytesHeld {store rev} (mem : e ∈ iterateBytes store start stop limit rev) : store.get e.1 = some e.2 := by
  have among := memLimited mem
  rw [← memIffGet]
  cases rev with
  | false => exact (mem_filter.mp among).1
  | true =>
    simp only [if_true] at among
    split at among
    · cases among
    · exact (mem_filter.mp (mem_reverse.mp among)).1

theorem getKeeps (db : Database Bytes Bytes) (key k : Bytes) : (db.get key).2.view k = db.view k := by
  unfold Database.get
  split
  · rfl
  · rfl
  rename_i absent
  cases held : db.store.get key with
  | none => rfl
  | some value =>
    refine (Database.putView db key ⟨some value,value,false,false⟩ k).trans ?_
    split
    · rename_i same
      subst same
      unfold CacheDB.get at absent
      unfold Database.view
      cases hit : OrderedMap.get db.cache k with
      | none => simp [held]
      | some c => rw [hit] at absent; simp only at absent; split at absent <;> cases absent
    · rfl

structure Shows (store ideal : OrderedMap Bytes Bytes) (db : Database Bytes Bytes) : Prop where
  store : db.store = store
  coherent : db.Coherent
  view : ∀ k, db.view k = ideal.get k

theorem newShows (store : OrderedMap Bytes Bytes) : Shows store store (new store) :=
  ⟨rfl,newCoherent store,fun _ => rfl⟩

section
variable {store shown : OrderedMap Bytes Bytes} {db : Database Bytes Bytes} (shows : Shows store shown db)
include shows

theorem Shows.get (key : Bytes) : (db.get key).1 = shown.get key := (getView db key).trans (shows.view key)

theorem Shows.afterGet (key : Bytes) : Shows store shown (db.get key).2 := by
  refine ⟨?_,?_,fun k => (getKeeps db key k).trans (shows.view k)⟩ <;> unfold Database.get <;> split
  · exact shows.store
  · exact shows.store
  · cases db.store.get key <;> exact shows.store
  · exact shows.coherent
  · exact shows.coherent
  · cases held : db.store.get key with
    | none => exact shows.coherent
    | some value => exact Database.putCoherent shows.coherent held.symm (fun _ => rfl) (fun _ _ w same => Option.some.inj same)

theorem Shows.afterSet (key value : Bytes) : Shows store (shown.set key value) (db.set key value) := by
  refine ⟨(setStore db _ value).trans shows.store,setCoherent shows.coherent _ value,fun k => ?_⟩
  refine (setView shows.coherent _ value k).trans ?_
  rw [shows.view k]
  exact (getSet shown key k value).symm

theorem Shows.step (step : View × Operation) : Shows store (ideal shown step) (perform db step) := by
  obtain ⟨view,op⟩ := step
  cases op with
  | get key | has key => exact shows.afterGet _
  | set key value => exact shows.afterSet (view.getKey key) value
  | del key =>
    refine ⟨(delStore db _).trans shows.store,delCoherent shows.coherent _,fun k => ?_⟩
    refine (delView shows.coherent _ k).trans ?_
    rw [shows.view k]
    exact (getDel shown (view.getKey key) k).symm
  | range start stop limit rev =>
    obtain ⟨coh,same⟩ := collectStoredKeeps shows.coherent (fun e => iterateBytesHeld) []
    exact ⟨shows.store,coh,fun k => (same k).trans (shows.view k)⟩

theorem Shows.run (steps : List (View × Operation)) : Shows store (steps.foldl ideal shown) (steps.foldl perform db) := by
  induction steps generalizing shown db with
  | nil => exact shows
  | cons step rest ih => exact ih (shows.step step)

variable {order : List (Bytes × CacheValue Bytes)} (perm : order.Perm db.cache.entries)
include perm

theorem Shows.committed : applyWrites store (commitEntries order).1 = shown := by
  apply extGet
  intro k
  have applied := commitApplied shows.coherent perm k
  rw [shows.store] at applied
  exact applied.trans (shows.view k)

theorem Shows.reverted : applyWrites shown (revertDiff (commitEntries order).2) = store := by
  have reverted := revertApplied shows.coherent perm
  rw [shows.store,shows.committed perm] at reverted
  exact reverted

end

def KV.schema : Schema := .cons 1 .bytes (.cons 2 .bytes .nil)

def KV.value (kv : Bytes × Bytes) : KV.schema.Value := (kv.1, kv.2, ())

/-- Decoding leaves no nil pointer in a list. -/
def KV.ofValue (e : Option KV.schema.Value) : Bytes × Bytes :=
  match e.getD KV.schema.zero with
  | (key, value, _) => (key, value)

namespace Diff

def schema : Schema :=
  .cons 1 .bytesArray (.cons 2 (.messageArray KV.schema) (.cons 3 (.messageArray KV.schema) .nil))

def value (diff : Diff Bytes Bytes) : schema.Value :=
  (diff.added, diff.updated.map (fun kv => some (KV.value kv)), diff.deleted.map (fun kv => some (KV.value kv)), ())

def ofValue : schema.Value → Diff Bytes Bytes
  | (added, updated, deleted, _) => ⟨added,updated.map KV.ofValue,deleted.map KV.ofValue⟩

def encode (text : Normalizer) (diff : Diff Bytes Bytes) : Option Bytes := schema.encode text diff.value

def decode (text : Normalizer) (data : Bytes) : Except CodecError (Diff Bytes Bytes) :=
  (schema.decode text data).map ofValue

end Diff

variable {text : Normalizer}

theorem diffIncreasing : Diff.schema.Increasing 0 := by
  simp [Diff.schema,KV.schema,Schema.Increasing,Kind.Increasing]

theorem kvsValid (kvs : List (Bytes × Bytes)) :
    ∀ e ∈ kvs.map (fun kv => some (KV.value kv)), ∃ v, e = some v ∧ KV.schema.Valid text v := by
  intro e mem
  obtain ⟨kv,_,rfl⟩ := mem_map.mp mem
  exact ⟨_,rfl,trivial,trivial,trivial⟩

theorem diffValid (diff : Diff Bytes Bytes) : Diff.schema.Valid text diff.value :=
  ⟨trivial,kvsValid diff.updated,kvsValid diff.deleted,trivial⟩

theorem diffOfValue (diff : Diff Bytes Bytes) : Diff.ofValue diff.value = diff := by
  have pairs : ∀ kvs : List (Bytes × Bytes), (kvs.map (fun kv => some (KV.value kv))).map KV.ofValue = kvs := by
    intro kvs
    rw [map_map]
    exact map_id kvs
  unfold Diff.ofValue Diff.value
  simp only [pairs]

theorem diffEncodes (diff : Diff Bytes Bytes) : ∃ data, diff.encode text = some data :=
  encodeSome Diff.schema (by decide) diff.value

theorem diffDecodes {diff} (enc : diff.encode text = some data) (short : data.length < 9223372036854775808) :
    Diff.decode text data = .ok diff := by
  have dec := decodeEncoded (by decide) diffIncreasing (diffValid diff) enc short
  simp only [Diff.decode,dec,Except.map,diffOfValue]

variable (text) in
theorem overlayIdealMap (store : OrderedMap Bytes Bytes) (steps : List (View × Operation)) :
    let db := steps.foldl perform (Database.new store)
    let shown := steps.foldl ideal store
    (∀ (view : View) (key : Bytes), (view.get db key).1 = shown.get (view.getKey key) ∧
      (view.has db key).1 = (shown.get (view.getKey key)).isSome) ∧
    ∀ order, order.Perm db.cache.entries → applyWrites store (commitEntries order).1 = shown ∧
      ∃ data, (commitEntries order).2.encode text = some data ∧ (data.length < 2 ^ 63 → ∃ diff, Diff.decode text data = .ok diff ∧
          applyWrites shown (revertDiff diff) = store) := by
  intro db shown
  have shows := (newShows store).run steps
  constructor
  · intro view key
    have found : (view.get db key).1 = shown.get (view.getKey key) := shows.get _
    exact ⟨found,congrArg Option.isSome found⟩
  · intro order perm
    obtain ⟨data,encoded⟩ := diffEncodes (commitEntries order).2
    refine ⟨shows.committed perm,data,encoded,fun short => ⟨_,diffDecodes encoded ?_,shows.reverted perm⟩⟩
    norm_num at short
    exact short

def sampleSteps : List (View × Operation) :=
  let base : View := ⟨[1]⟩
  [(base, .get [5]),(base.withPrefix [2], .set [7] [9]),(base, .del [5]),(base, .range [0] [255] (-1) true),
    (base, .set [6] [8])]

def sampleStore : OrderedMap Bytes Bytes := (OrderedMap.empty.set [1,5] [50]).set [1,6] [60]

theorem overlayIdealMapSample : applyWrites sampleStore (sampleSteps.foldl perform (Database.new sampleStore)).commit.1 =
        (OrderedMap.empty.set [1, 2, 7] [9]).set [1, 6] [8] ∧
      ((⟨[1]⟩ : View).get (sampleSteps.foldl perform (Database.new sampleStore)) [6]).1 = some [8] := by
  have result := overlayIdealMap .plain sampleStore sampleSteps
  refine ⟨(result.2 _ (List.Perm.refl _)).1.trans (by decide +kernel),((result.1 ⟨[1]⟩ [6]).1).trans (by decide +kernel)⟩

end LiskEngine.Diffdb
