import LiskEngine.BftModule

/-! Which BFT parameters are in force at a height, and that the reads, the cache,
the deletion of old entries and the writes of new ones agree about it. -/
namespace LiskEngine.Liskbft
open Diffdb List Database

section
variable {V : Type}

def InForce (db : Database Nat V) (height : Nat) (v : V) : Prop := ∃ k, Database.IsFloor db 0 height k v

def Settled (db : Database Nat V) (bound : Nat) : Prop :=
  ∀ d, db.store.get d ≠ none → db.view d = none → ∃ m v, db.view m = some v ∧ d < m ∧ m ≤ bound

theorem inForceUnique (left : InForce db height v) (right : InForce db height w) : v = w := by
  obtain ⟨k,atK⟩ := left
  obtain ⟨l,atL⟩ := right
  have same : k = l := le_antisymm (atL.greatest k v atK.held atK.low atK.high)
    (atK.greatest l w atL.held atL.low atL.high)
  subst same
  exact Option.some.inj (atK.held.symm.trans atL.held)

theorem inForceCongr {db db' height} (same : ∀ k, k ≤ height → db.view k = db'.view k) {v : V} (held : InForce db height v) :
    InForce db' height v := by
  obtain ⟨k,floor⟩ := held
  refine ⟨k,same k floor.high ▸ floor.held,floor.low,floor.high,fun k' v' seen low high => ?_⟩
  exact floor.greatest k' v' (same k' high ▸ seen) low high

theorem inForceExtend (held : InForce db low v) (within : low ≤ high)
    (gap : ∀ k w, db.view k = some w → low < k → ¬ k ≤ high) : InForce db high v := by
  obtain ⟨k,floor⟩ := held
  refine ⟨k,floor.held,floor.low,floor.high.trans within,fun k' v' seen above fit => ?_⟩
  rcases lt_or_ge low k' with beyond | inside
  · exact absurd fit (gap k' v' seen beyond)
  · exact floor.greatest k' v' seen above inside

theorem settledMono (settled : Settled db bound) (within : bound ≤ bound') : Settled db bound' := by
  intro d stored gone
  obtain ⟨m,v,live,below,fit⟩ := settled d stored gone
  exact ⟨m,v,live,below,fit.trans within⟩

theorem settledFloorSafe (settled : Settled db bound) (within : bound ≤ height) : Database.FloorSafe db 0 height :=
  fun d _ _ stored gone => settledMono settled within d stored gone

theorem settledNew (store : OrderedMap Nat V) (bound : Nat) : Settled (new store) bound := by
  intro d stored gone
  exact absurd (newView store d ▸ gone) stored

theorem settledSet (coh : Database.Coherent db) (settled : Settled db bound) (key : Nat) (value : V) :
    Settled (db.set key value) bound := by
  intro d stored gone
  rw [setStore] at stored
  rw [setView coh] at gone
  split at gone
  · contradiction
  obtain ⟨m,v,live,below,fit⟩ := settled d stored gone
  by_cases same : m = key
  · exact ⟨m,value,by rw [setView coh,if_pos same],below,fit⟩
  · exact ⟨m,v,by rw [setView coh,if_neg same]; exact live,below,fit⟩

theorem inForceSet {db} (coh : Database.Coherent db) {key height} (value : V) (below : height < key) {v}
    (held : InForce db height v) : InForce (db.set key value) height v := by
  refine inForceCongr (fun k fit => ?_) held
  rw [setView coh,if_neg (by omega)]

theorem deleteAllButLastSpec {db} (coh : Database.Coherent db) {es : List (Nat × V)} (sorted : es.Pairwise (fun a b => a.1 < b.1)) :
    Database.Coherent (deleteAllButLast db es) ∧ (deleteAllButLast db es).store = db.store ∧
      ∀ k, (deleteAllButLast db es).view k = if k ∈ es.dropLast.map Prod.fst then none else db.view k := by
  induction es generalizing db with
  | nil => exact ⟨coh,rfl,fun k => by simp [deleteAllButLast]⟩
  | cons e rest ih =>
    cases rest with
    | nil => exact ⟨coh,rfl,fun k => by simp [deleteAllButLast]⟩
    | cons e' rest =>
      obtain ⟨next,store,views⟩ := ih (delCoherent coh e.1) sorted.of_cons
      refine ⟨next,store,fun k => ?_⟩
      have step := views k
      rw [delView coh] at step
      show (deleteAllButLast (db.del e.1) (e'::rest)).view k = _
      by_cases inside : k ∈ (e'::rest).dropLast.map Prod.fst <;> by_cases same : k = e.1 <;>
        simp_all [dropLast_cons_cons]

theorem deleteBelowSpec [Inhabited V] {db : Database Nat V} (coh : Database.Coherent db) (height : Nat) :
    Database.Coherent (deleteBelow db height) ∧ (deleteBelow db height).store = db.store ∧
      ((∀ k, (deleteBelow db height).view k = db.view k) ∨ ∃ f v, Database.IsFloor db 0 height f v ∧
          ∀ k, (deleteBelow db height).view k = if k < f then none else db.view k) := by
  obtain ⟨es,sorted,mems,listed⟩ := rangeAll db 0 height false
  simp only [Bool.false_eq_true,if_false] at listed
  unfold deleteBelow
  rw [listed]
  obtain ⟨next,store,views⟩ := deleteAllButLastSpec coh sorted
  refine ⟨next,store,?_⟩
  rcases eq_nil_or_concat es with empty | ⟨init,last,split⟩
  · exact .inl (fun k => by rw [views k,empty]; simp)
  rw [concat_eq_append] at split
  subst split
  have top : (last.1,last.2) ∈ init ++ [last] := by simp
  obtain ⟨low,high,held⟩ := (mems last.1 last.2).mp top
  have below : ∀ e ∈ init, e.1 < last.1 := fun e inside =>
    (pairwise_append.mp sorted).2.2 e inside last (by simp)
  refine .inr ⟨last.1,last.2,⟨held,low,high,fun k v seen low' high' => ?_⟩,fun k => ?_⟩
  · have listedAt := (mems k v).mpr ⟨low',high',seen⟩
    rcases mem_append.mp listedAt with inside | atEnd
    · exact le_of_lt (below _ inside)
    · exact le_of_eq (congrArg Prod.fst (mem_singleton.mp atEnd))
  · rw [views k,dropLast_concat]
    by_cases inside : k ∈ init.map Prod.fst
    · obtain ⟨e,mem,same⟩ := mem_map.mp inside
      rw [if_pos inside,if_pos (same ▸ below e mem)]
    rw [if_neg inside]
    split
    · rename_i less
      cases seen : db.view k with
      | none => rfl
      | some v =>
        have listedAt := (mems k v).mpr ⟨Nat.zero_le k,by omega,seen⟩
        rcases mem_append.mp listedAt with early | atEnd
        · exact absurd (mem_map.mpr ⟨_,early,rfl⟩) inside
        · have := congrArg Prod.fst (mem_singleton.mp atEnd)
          omega
    · rfl

theorem inForceDelete [Inhabited V] (coh : Database.Coherent db) (within : bound ≤ height) {v : V}
    (held : InForce db height v) : InForce (deleteBelow db bound) height v := by
  obtain ⟨_,_,same | ⟨f,w,floor,views⟩⟩ := deleteBelowSpec coh bound
  · exact inForceCongr (fun k _ => (same k).symm) held
  obtain ⟨k,top⟩ := held
  have above : f ≤ k := top.greatest f w floor.held floor.low (floor.high.trans within)
  refine ⟨k,by rw [views,if_neg (by omega)]; exact top.held,top.low,top.high,?_⟩
  intro k' v' seen low high
  rw [views] at seen
  split at seen
  · contradiction
  · exact top.greatest k' v' seen low high

theorem settledDelete [Inhabited V] {db : Database Nat V} (coh : Database.Coherent db) (within : height ≤ bound)
    (settled : Settled db bound) : Settled (deleteBelow db height) bound := by
  obtain ⟨_,store,same | ⟨f,w,floor,views⟩⟩ := deleteBelowSpec coh height
  · intro d stored gone
    rw [store] at stored
    rw [same] at gone
    obtain ⟨m,v,live,below,fit⟩ := settled d stored gone
    exact ⟨m,v,by rw [same]; exact live,below,fit⟩
  · intro d stored gone
    rw [store] at stored
    rw [views] at gone
    have kept : (deleteBelow db height).view f = some w := by rw [views,if_neg (lt_irrefl f)]; exact floor.held
    split at gone
    · exact ⟨f,w,kept,by assumption,floor.high.trans within⟩
    obtain ⟨m,v,live,below,fit⟩ := settled d stored gone
    rcases lt_or_ge d f with under | above
    · exact ⟨f,w,kept,under,floor.high.trans within⟩
    · exact ⟨m,v,by rw [views,if_neg (by omega)]; exact live,below,fit⟩

theorem deleteViewSubset [Inhabited V] (coh : Database.Coherent db) {v : V}
    (seen : (deleteBelow db height).view k = some v) : db.view k = some v := by
  obtain ⟨_,_,same | ⟨f,w,_,views⟩⟩ := deleteBelowSpec coh height
  · rw [← same]; exact seen
  rw [views] at seen
  split at seen
  · contradiction
  · exact seen

theorem newestInForce [Inhabited V] (settled : Settled db bound) (within : bound ≤ height) {v : V} :
    (∃ k, (db.range 0 height 1 true).1 = [(k,v)]) ↔ InForce db height v := by
  rcases rangeFloor (settledFloorSafe settled within) with ⟨nothing,above⟩ | ⟨f,w,one,floor⟩
  · rw [nothing]
    refine iff_of_false (by simp) ?_
    rintro ⟨k,held⟩
    exact absurd (above k v held.held held.low) (by have := held.high; omega)
  · rw [one]
    constructor
    · rintro ⟨k,same⟩
      cases same
      exact ⟨f,floor⟩
    · intro held
      rw [inForceUnique held ⟨f,floor⟩]
      exact ⟨f,rfl⟩

end

theorem getBFTParamsInForce {db bound height} (settled : Settled db bound) (within : bound ≤ height) {p : BFTParams} :
    getBFTParams db height = .ok p ↔ InForce db height p := by
  rw [← newestInForce settled within]
  unfold getBFTParams
  split <;> simp_all [Prod.ext_iff]

theorem getGeneratorKeysInForce {db bound height} (settled : Settled db bound) (within : bound ≤ height) {gens : List Generator} :
    getGeneratorKeys db height = .ok gens ↔ InForce db height gens := by
  rw [← newestInForce settled within]
  unfold getGeneratorKeys
  split <;> simp_all [Prod.ext_iff]

theorem cachedLookup {kv} {heights : List Nat} {data} (ok : heights.mapM (cachedValue kv) = .ok data) {h} (mem : h ∈ heights) :
    ∃ e, kv.find? (·.1 ≤ h) = some e ∧ data.lookup h = some e.2 := by
  induction heights generalizing data with
  | nil => simp at mem
  | cons first rest ih =>
    rw [mapM_cons] at ok
    obtain ⟨value,atFirst,ok⟩ := bindOk ok
    obtain ⟨vs,atRest,ok⟩ := bindOk ok
    cases ok
    unfold cachedValue at atFirst
    cases hit : kv.find? (·.1 ≤ first) with
    | none => rw [hit] at atFirst; cases atFirst
    | some e =>
      rw [hit] at atFirst
      cases atFirst
      by_cases same : h = first
      · subst same
        exact ⟨e,hit,by simp⟩
      · obtain ⟨e',hit',looked⟩ := ih atRest ((mem_cons.mp mem).resolve_left same)
        exact ⟨e',hit',by rw [lookup_cons,beq_false_of_ne same]; exact looked⟩

theorem listedInForce {db start stop height} {es : List (Nat × BFTParams)} (sorted : es.Pairwise (fun a b => a.1 < b.1))
    (mems : ∀ k v, (k,v) ∈ es ↔ start ≤ k ∧ k ≤ stop ∧ db.view k = some v) (low : start ≤ height) (high : height ≤ stop)
    (lowest : List (Nat × BFTParams)) (floor : ∀ e ∈ lowest, InForce db start e.2) {e}
    (hit : (es.reverse ++ lowest).find? (·.1 ≤ height) = some e) : InForce db height e.2 := by
  rw [find?_append] at hit
  cases inside : es.reverse.find? (·.1 ≤ height) with
  | some e' =>
    rw [inside] at hit
    cases hit
    have fit : e.1 ≤ height := by simpa using find?_some inside
    obtain ⟨from_,_,held⟩ := (mems e.1 e.2).mp (mem_reverse.mp (mem_of_find?_eq_some inside))
    refine ⟨e.1,held,Nat.zero_le _,fit,fun k v seen _ bound => ?_⟩
    rcases lt_or_ge k start with early | late
    · omega
    have listed := mem_reverse.mpr ((mems k v).mpr ⟨late,by omega,seen⟩)
    obtain ⟨_,before,after,split,skipped⟩ := find?_eq_some_iff_append.mp inside
    rw [split] at listed
    rcases mem_append.mp listed with first | later
    · exact absurd bound (by simpa using skipped _ first)
    rcases mem_cons.mp later with same | rest
    · exact le_of_eq (congrArg Prod.fst same)
    · have order := pairwise_reverse.mpr sorted
      rw [split] at order
      exact le_of_lt ((pairwise_cons.mp (pairwise_append.mp order).2.1).1 _ rest)
  | none =>
    rw [inside] at hit
    have gap : ∀ k w, db.view k = some w → start ≤ k → ¬ k ≤ height := by
      intro k w seen late bound
      have listed := mem_reverse.mpr ((mems k w).mpr ⟨late,by omega,seen⟩)
      exact absurd bound (by simpa using find?_eq_none.mp inside _ listed)
    have lowestFound : lowest.find? (·.1 ≤ height) = some e := by simpa using hit
    have held := floor e (mem_of_find?_eq_some lowestFound)
    exact inForceExtend held low (fun k w seen later => gap k w seen (by omega))

theorem cacheSpec {db} {start stop bound : Nat} {c} (settled : Settled db bound) (within : bound ≤ start)
    (ok : (newBFTParamsCache db).cache start stop = .ok c) :
    stop < maxUint32 ∧ ∀ h, start ≤ h → h ≤ stop → ∃ p, c.getParameters h = .ok p ∧ InForce db h p := by
  obtain ⟨es,sorted,mems,listed⟩ := rangeAll db start stop true
  obtain ⟨kv,filled,ok⟩ := bindOk ok
  split at ok
  · cases ok
  obtain ⟨data,mapped,ok⟩ := bindOk ok
  cases ok
  refine ⟨by omega,fun h low high => ?_⟩
  obtain ⟨e,hit,looked⟩ := cachedLookup mapped (h := h) (by simp [mem_range'_1]; omega)
  refine ⟨e.2,by simp [BftParamsCache.getParameters,newBFTParamsCache,looked],?_⟩
  simp only [BftParamsCache.listed,newBFTParamsCache,listed,if_true] at filled
  split at filled
  · obtain ⟨lowest,read,filled⟩ := bindOk filled
    cases filled
    have held := (getBFTParamsInForce settled within).mp read
    exact listedInForce sorted mems low high [(start,lowest)] (by simpa using held) hit
  · cases filled
    exact listedInForce sorted mems low high [] (by simp) (by simpa using hit)

end LiskEngine.Liskbft
