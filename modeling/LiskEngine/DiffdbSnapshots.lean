import LiskEngine.DiffdbHandles
import LiskEngine.StepRun
import Mathlib.Logic.Function.Basic

/-! Snapshots and views against one map with saved copies. A restore replaces the cache of one database; the
views that were made before it keep the cache they share, so they are not to be used any more. -/
namespace LiskEngine.Diffdb
open List OrderedMap StepRun

inductive ViewStep where
  | view (more : Bytes)
  | run (i : Nat) (operation : Operation)
  | snapshot (i : Nat)
  | restore (i : Nat) (id : Int)
  deriving DecidableEq, Repr

/-- What all views are to show, and what it was at the snapshots. The views before `old` were made before the last restore. -/
structure Contents where
  shown : OrderedMap Bytes Bytes
  views : List View
  old : Nat
  saved : List (Int × OrderedMap Bytes Bytes)
  count : Int

namespace Contents

def new (store : OrderedMap Bytes Bytes) : Contents := ⟨store,[⟨[]⟩],0,[],0⟩

def uses (s : Contents) (i : Nat) : Option View := if i = 0 ∨ s.old ≤ i then s.views[i]? else none

/-- Only the first database is restored, and a view made before that is not used after it. -/
def step (s : Contents) : ViewStep → Option Contents
  | .view more => some {s with views := s.views ++ [⟨more⟩]}
  | .run i operation => (s.uses i).map (fun view => {s with shown := ideal s.shown (view, operation)})
  | .snapshot 0 => some {s with saved := (s.count, s.shown) :: s.saved.filter (fun taken => taken.1 ≠ s.count), count := s.count + 1}
  | .snapshot i => (s.uses i).map (fun _ => s)
  | .restore 0 id => match s.saved.lookup id with
    | some shown => some {s with shown := shown, saved := s.saved.filter (fun taken => taken.1 ≠ id), old := s.views.length}
    | none => some s
  | .restore _ _ => none

end Contents

namespace Memory

def step (m : Memory) : ViewStep → Option Memory
  | .view more => (m.getStore more).map Prod.snd
  | .run i operation => (m.call i (.run operation)).map Prod.snd
  | .snapshot i => (m.snapshot i).map Prod.snd
  | .restore i id => (m.restoreSnapshot i id).map Prod.snd

/-- The caches of the first database show the contents in `held`, and the views in use have its cache. -/
structure Refines (base : OrderedMap Bytes Bytes) (s : Contents) (m : Memory) (root : Handle) (held : Nat → OrderedMap Bytes Bytes) :
    Prop where
  store : m.store = base
  views : m.handles.map Handle.view = s.views
  first : m.handles[0]? = some root
  start : root.keyPrefix = []
  live : ∀ i h, m.handles[i]? = some h → i = 0 ∨ s.old ≤ i → h.cache = root.cache
  distinct : root.references.Nodup
  shows : ∀ a ∈ root.references, Shows base (held a) ⟨base,m.cacheAt a⟩
  shown : s.shown = held root.cache
  saved : s.saved = root.snapshots.map (fun taken => (taken.1,held taken.2))
  count : s.count = root.snapshotCount

theorem lookupMap {α β : Type} (f : α → β) (l : List (Int × α)) (id : Int) :
    (l.map (fun e => (e.1,f e.2))).lookup id = (l.lookup id).map f := by
  induction l with
  | nil => rfl
  | cons e rest ih =>
    obtain ⟨key,value⟩ := e
    simp only [map_cons,lookup_cons]
    split
    · rfl
    · exact ih

theorem viewsSet {handles handles' : List Handle} {i h h'} (hit : handles[i]? = some h) (set : handles' = handles.set i h')
    (same : h'.view = h.view) : handles'.map Handle.view = handles.map Handle.view := by
  refine ext_getElem? (fun j => ?_)
  rw [set,getElem?_map,getElem?_map,getElem?_set]
  split
  · rename_i own
    subst own
    rw [if_pos (List.getElem?_eq_some_iff.mp hit).1,hit,Option.map_some,Option.map_some,same]
  · rfl

section
variable {base : OrderedMap Bytes Bytes} {s s' : Contents} {m : Memory} {root : Handle} {held : Nat → OrderedMap Bytes Bytes}
  (refines : Refines base s m root held)
include refines

theorem Refines.uses {i view} (used : s.uses i = some view) :
    ∃ h, m.handles[i]? = some h ∧ h.view = view ∧ h.cache = root.cache := by
  unfold Contents.uses at used
  split at used
  · rename_i live
    rw [← refines.views,getElem?_map,Option.map_eq_some_iff] at used
    obtain ⟨h,hit,rfl⟩ := used
    exact ⟨h,hit,rfl,refines.live i h hit live⟩
  · cases used

theorem Refines.allocated {a} (mem : a ∈ root.references) : a < m.caches.length :=
  m.allocated root (mem_of_getElem? refines.first) a mem

theorem Refines.view (more : Bytes) : ∃ m', m.step (.view more) = some m' ∧
    Refines base {s with views := s.views ++ [⟨more⟩]} m' root held := by
  have first := refines.first
  have pos := (List.getElem?_eq_some_iff.mp first).1
  cases made : m.getStore more with
  | none =>
    unfold getStore at made
    split at made <;> simp_all
  | some result =>
    refine ⟨result.2,by simp [step,made],?_⟩
    unfold getStore at made
    split at made
    · cases made
    rename_i root' hit
    cases first.symm.trans hit
    cases made
    refine ⟨refines.store,?_,(getElem?_append_left pos).trans first,refines.start,fun i h hit live => ?_,refines.distinct,refines.shows,
      refines.shown,refines.saved,refines.count⟩
    · simp [refines.views,Handle.view,Handle.withPrefix,refines.start]
    · rcases Nat.lt_or_ge i m.handles.length with old | new
      · exact refines.live i h ((getElem?_append_left old).symm.trans hit) live
      · rw [getElem?_append_right new] at hit
        rw [mem_singleton.mp (mem_of_getElem? hit)]
        rfl

theorem Refines.run {i view} (used : s.uses i = some view) (op : Operation) : ∃ m' held', m.step (.run i op) = some m' ∧
    Refines base {s with shown := ideal s.shown (view, op)} m' root held' := by
  obtain ⟨h,hit,rfl,cache⟩ := refines.uses used
  have answered : ∃ r, h.view.answer (m.database h) (.run op) = some (r,perform (m.database h) (h.view,op)) := by
    cases op <;> exact ⟨_,rfl⟩
  obtain ⟨r,answer⟩ := answered
  have database : m.database h = ⟨base,m.cacheAt root.cache⟩ := by rw [Memory.database,refines.store,cache]
  have next := (refines.shows _ (.head _)).step (h.view,op)
  rw [← database,← refines.shown] at next
  refine ⟨_,Function.update held root.cache (ideal s.shown (h.view,op)),by simp only [step,call,hit,answer]; rfl,?_⟩
  refine ⟨refines.store,refines.views,refines.first,refines.start,refines.live,refines.distinct,fun a mem => ?_,
    by simp,refines.saved.trans (map_congr_left (fun taken mem => ?_)),refines.count⟩
  · show Shows base _ ⟨base,(m.caches.set h.cache (perform (m.database h) (h.view,op)).cache).getD a OrderedMap.empty⟩
    rw [cache,getD_eq_getElem?_getD]
    by_cases own : a = root.cache
    · subst own
      rw [Function.update_self,getElem?_set_self (refines.allocated mem)]
      have same : (⟨base,(perform (m.database h) (h.view,op)).cache⟩ : Database Bytes Bytes) =
          perform (m.database h) (h.view,op) := by rw [← next.store]
      exact same ▸ next
    · rw [Function.update_of_ne own,getElem?_set_ne (Ne.symm own)]
      exact refines.shows a mem
  · have other : taken.2 ≠ root.cache := fun same =>
      (nodup_cons.mp refines.distinct).1 (same ▸ mem_map_of_mem mem)
    rw [Function.update_of_ne other]

theorem Refines.snapshot : ∃ m' root' held', m.step (.snapshot 0) = some m' ∧
    Refines base {s with
      saved := (s.count, s.shown) :: s.saved.filter (fun taken => taken.1 ≠ s.count)
      count := s.count + 1} m' root' held' := by
  obtain ⟨m',taken,handles,store,caches⟩ := snapshotOk refines.first
  have pos := (List.getElem?_eq_some_iff.mp refines.first).1
  have fresh : m.caches.length ∉ root.references := fun mem => lt_irrefl _ (refines.allocated mem)
  refine ⟨m',root.snapshot m.caches.length,Function.update held m.caches.length s.shown,by simp [step,taken],?_⟩
  refine ⟨store.trans refines.store,(viewsSet refines.first handles rfl).trans refines.views,by rw [handles,getElem?_set_self pos],
    refines.start,fun i h hit live => ?_,?_,fun a mem => ?_,?_,?_,by rw [refines.count]; rfl⟩
  · rw [handles,getElem?_set] at hit
    split at hit
    · exact Option.some.inj hit ▸ rfl
    · exact refines.live i h hit live
  · obtain ⟨own,others⟩ := nodup_cons.mp refines.distinct
    have kept : ((root.deleteSnapshot root.snapshotCount).snapshots.map Prod.snd).Sublist (root.snapshots.map Prod.snd) :=
      filter_sublist.map _
    simp only [Handle.references,mem_cons,not_or] at fresh
    refine nodup_cons.mpr ⟨?_,nodup_cons.mpr ⟨fun mem => fresh.2 (kept.subset mem),others.sublist kept⟩⟩
    exact fun mem => (mem_cons.mp mem).elim (fun same => fresh.1 same.symm) (fun old => own (kept.subset old))
  · rw [cacheAt,caches,getD_eq_getElem?_getD]
    rcases root.snapshotReferences _ a mem with old | rfl
    · have inside := refines.allocated old
      rw [Function.update_of_ne inside.ne,getElem?_append_left inside]
      exact refines.shows a old
    · rw [Function.update_self,getElem?_concat_length,refines.shown]
      exact refines.shows _ (.head _)
  · have other : root.cache ≠ m.caches.length := fun same => fresh (same ▸ .head _)
    exact refines.shown.trans (Function.update_of_ne other _ _).symm
  · simp only [Handle.snapshot,Handle.deleteSnapshot,map_cons,Function.update_self,refines.count,refines.saved,filter_map]
    refine congrArg _ (map_congr_left (fun taken mem => ?_))
    have other : taken.2 ≠ m.caches.length := fun same => fresh (same ▸ .tail _ (mem_map_of_mem (mem_filter.mp mem).1))
    rw [Function.update_of_ne other]

theorem Refines.viewSnapshot {i view} (used : s.uses (i+1) = some view) : ∃ m', m.step (.snapshot (i+1)) = some m' ∧
    Refines base s m' root held := by
  obtain ⟨h,hit,_,cache⟩ := refines.uses used
  obtain ⟨m',taken,handles,store,caches⟩ := snapshotOk hit
  refine ⟨m',by simp [step,taken],store.trans refines.store,(viewsSet hit handles rfl).trans refines.views,
    by rw [handles,getElem?_set_ne (by omega),refines.first],refines.start,fun j h' hit' live => ?_,refines.distinct,fun a mem => ?_,
    refines.shown,refines.saved,refines.count⟩
  · rw [handles,getElem?_set] at hit'
    split at hit'
    · split at hit'
      · exact Option.some.inj hit' ▸ cache
      · cases hit'
    · exact refines.live j h' hit' live
  · rw [cacheAt,caches,getD_eq_getElem?_getD,getElem?_append_left (refines.allocated mem)]
    exact refines.shows a mem

theorem Refines.restore {id shown} (found : s.saved.lookup id = some shown) : ∃ m' root', m.step (.restore 0 id) = some m' ∧
    Refines base {s with shown := shown, saved := s.saved.filter (fun taken => taken.1 ≠ id), old := s.views.length} m' root' held := by
  rw [refines.saved,lookupMap,Option.map_eq_some_iff] at found
  obtain ⟨a,found,rfl⟩ := found
  have restored : root.restoreSnapshot id = some ⟨root.keyPrefix,a,(root.deleteSnapshot id).snapshots,root.snapshotCount⟩ := by
    simp [Handle.restoreSnapshot,found,Handle.deleteSnapshot]
  obtain ⟨m',taken,handles,store,caches⟩ := restoreSnapshotOk refines.first restored
  have pos := (List.getElem?_eq_some_iff.mp refines.first).1
  refine ⟨m',⟨root.keyPrefix,a,(root.deleteSnapshot id).snapshots,root.snapshotCount⟩,by simp [step,taken],store.trans refines.store,(viewsSet refines.first handles rfl).trans refines.views,
    by rw [handles,getElem?_set_self pos],refines.start,fun i h hit live => ?_,?_,fun b mem => ?_,rfl,?_,refines.count⟩
  · rw [handles,getElem?_set] at hit
    split at hit
    · exact Option.some.inj hit ▸ rfl
    · have inside := (List.getElem?_eq_some_iff.mp hit).1
      have length := congrArg List.length refines.views
      rw [length_map] at length
      have later : s.views.length ≤ i := live.resolve_left (fun zero => by simp_all)
      omega
  · obtain ⟨before,after,split,_⟩ := lookup_eq_some_iff.mp found
    have mem : (id,a) ∈ root.snapshots := by simp [split]
    have others := (nodup_cons.mp refines.distinct).2
    have kept : ((root.deleteSnapshot id).snapshots.map Prod.snd).Sublist (root.snapshots.map Prod.snd) := filter_sublist.map _
    refine nodup_cons.mpr ⟨fun again => ?_,others.sublist kept⟩
    obtain ⟨taken,listed,same⟩ := mem_map.mp again
    obtain ⟨held,other⟩ := mem_filter.mp listed
    rw [inj_on_of_nodup_map others held mem same] at other
    simp at other
  · rw [cacheAt,caches]
    exact refines.shows b (Handle.restoredReferences restored b mem)
  · simp only [refines.saved,filter_map]
    rfl

theorem Refines.missing {id} (absent : s.saved.lookup id = none) : m.step (.restore 0 id) = some m := by
  rw [refines.saved,lookupMap,Option.map_eq_none_iff] at absent
  have failed : root.restoreSnapshot id = none := by simp [Handle.restoreSnapshot,absent]
  show (m.restoreSnapshot 0 id).map Prod.snd = some m
  unfold restoreSnapshot
  split
  · rename_i nothing
    rw [refines.first] at nothing
    cases nothing
  · rename_i h hit
    cases refines.first.symm.trans hit
    split
    · rfl
    · rename_i restored
      rw [failed] at restored
      cases restored

theorem Refines.step {e} (taken : s.step e = some s') :
    ∃ m' root' held', m.step e = some m' ∧ Refines base s' m' root' held' := by
  cases e with
  | view more =>
    cases taken
    obtain ⟨m',made,refines⟩ := refines.view more
    exact ⟨m',_,_,made,refines⟩
  | run i op =>
    obtain ⟨view,used,rfl⟩ := Option.map_eq_some_iff.mp taken
    obtain ⟨m',held',ran,refines⟩ := refines.run used op
    exact ⟨m',_,held',ran,refines⟩
  | snapshot i =>
    cases i with
    | zero =>
      cases taken
      exact refines.snapshot
    | succ i =>
      obtain ⟨view,used,rfl⟩ := Option.map_eq_some_iff.mp taken
      obtain ⟨m',ran,refines⟩ := refines.viewSnapshot used
      exact ⟨m',_,_,ran,refines⟩
  | restore i id =>
    cases i with
    | zero =>
      simp only [Contents.step] at taken
      split at taken
      · rename_i shown found
        cases taken
        obtain ⟨m',root',ran,refines⟩ := refines.restore found
        exact ⟨m',root',_,ran,refines⟩
      · rename_i absent
        cases taken
        exact ⟨m,_,_,refines.missing absent,refines⟩
    | succ i => cases taken

end

end Memory
end LiskEngine.Diffdb
