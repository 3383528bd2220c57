import LiskEngine.BftParams

/-! Values that hold from a height on until the next one is set. A store that drops old entries
still reads like the whole history for the heights above a bound. -/
namespace LiskEngine.Liskbft
open Diffdb List OrderedMap Database

def lastSet {V : Type} (history : List (Nat × V)) (height : Nat) : Option V :=
  (history.find? (fun e => e.1 ≤ height)).map Prod.snd

section
variable {V : Type} {history : List (Nat × V)} {next height : Nat} {value : V}

theorem lastSetAbove (above : height < next) : lastSet ((next,value)::history) height = lastSet history height := by
  unfold lastSet
  rw [find?_cons_of_neg (by simpa using above)]

theorem lastSetFrom (fit : next ≤ height) : lastSet ((next,value)::history) height = some value := by
  unfold lastSet
  rw [find?_cons_of_pos (by simpa using fit)]
  rfl

theorem lastSetSome (mem : e ∈ history) (fit : e.1 ≤ height) : ∃ v, lastSet history height = some v := by
  unfold lastSet
  cases hit : history.find? (·.1 ≤ height) with
  | none => exact absurd fit (by simpa using find?_eq_none.mp hit e mem)
  | some w => exact ⟨w.2,rfl⟩

theorem lastSetLater (all : ∀ e ∈ history, e.1 ≤ low) (within : low ≤ height) : lastSet history height = lastSet history low := by
  cases history with
  | nil => rfl
  | cons e rest =>
    have first : e.1 ≤ low := all e (by simp)
    rw [lastSetFrom (first.trans within),lastSetFrom first]

structure Tracks (db : Database Nat V) (history : List (Nat × V)) (low next : Nat) : Prop where
  coherent : Database.Coherent db
  below : ∀ k v, db.view k = some v → k ≤ next
  settled : Settled db low
  agrees : ∀ k, low ≤ k → ∀ v, InForce db k v ↔ lastSet history k = some v

variable {db : Database Nat V} {low : Nat}

theorem tracksNew (low next : Nat) : Tracks (new (OrderedMap.empty : OrderedMap Nat V)) [] low next where
  coherent := newCoherent _
  below k v seen := by simp [newView,getEmpty] at seen
  settled := settledNew _ _
  agrees k _ v := by
    refine iff_of_false (fun held => ?_) (by simp [lastSet])
    obtain ⟨f,floor⟩ := held
    simpa [newView,getEmpty] using floor.held

theorem Tracks.set (tracks : Tracks db history low next) (value : V) :
    Tracks (db.set next value) ((next,value)::history) low next where
  coherent := setCoherent tracks.coherent _ _
  below k v seen := by
    rw [setView tracks.coherent] at seen
    split at seen
    · omega
    · exact tracks.below k v seen
  settled := settledSet tracks.coherent tracks.settled _ _
  agrees k above v := by
    rcases lt_or_ge k next with early | late
    · rw [lastSetAbove early,← tracks.agrees k above v]
      have same : ∀ j, j ≤ k → (db.set next value).view j = db.view j := by
        intro j le
        rw [setView tracks.coherent,if_neg (by omega)]
      exact ⟨inForceCongr same,inForceCongr (fun j le => (same j le).symm)⟩
    · rw [lastSetFrom late]
      have newest : InForce (db.set next value) k value := by
        refine ⟨next,by rw [setView tracks.coherent,if_pos rfl],Nat.zero_le _,late,fun j w seen _ _ => ?_⟩
        rw [setView tracks.coherent] at seen
        split at seen
        · omega
        · exact tracks.below j w seen
      exact ⟨fun held => by rw [inForceUnique held newest],fun same => by cases same; exact newest⟩

theorem inForceDeleteIff [Inhabited V] (coh : Database.Coherent db) (within : bound ≤ height) (v : V) :
    InForce (deleteBelow db bound) height v ↔ InForce db height v := by
  refine ⟨fun held => ?_,inForceDelete coh within⟩
  obtain ⟨k,floor⟩ := held
  refine ⟨k,deleteViewSubset coh floor.held,floor.low,floor.high,fun j w seen low high => ?_⟩
  obtain ⟨_,_,same | ⟨f,u,kept,views⟩⟩ := deleteBelowSpec coh bound
  · exact floor.greatest j w (by rw [same]; exact seen) low high
  rcases lt_or_ge j f with gone | stays
  · have live : (deleteBelow db bound).view f = some u := by rw [views,if_neg (lt_irrefl f)]; exact kept.held
    exact gone.le.trans (floor.greatest f u live kept.low (kept.high.trans within))
  · exact floor.greatest j w (by rw [views,if_neg (by omega)]; exact seen) low high

theorem Tracks.delete [Inhabited V] (tracks : Tracks db history low next) (within : low ≤ low') (later : next ≤ next') :
    Tracks (deleteBelow db low') history low' next' where
  coherent := (deleteBelowSpec tracks.coherent low').1
  below k v seen := (tracks.below k v (deleteViewSubset tracks.coherent seen)).trans later
  settled := settledDelete tracks.coherent le_rfl (settledMono tracks.settled within)
  agrees k above v := by rw [inForceDeleteIff tracks.coherent above,tracks.agrees k (within.trans above)]

theorem Tracks.flush (tracks : Tracks db history low next) : Tracks db.flush history low next where
  coherent := flushCoherent _
  below k v seen := tracks.below k v ((flushView tracks.coherent k).symm.trans seen)
  settled := settledNew _ _
  agrees k above v := by
    rw [← tracks.agrees k above v]
    exact ⟨inForceCongr (fun j _ => flushView tracks.coherent j),
      inForceCongr (fun j _ => (flushView tracks.coherent j).symm)⟩

end

theorem getBFTParamsTracked {next} (tracks : Tracks db history low next) (above : low ≤ k) (p : BFTParams) :
    getBFTParams db k = .ok p ↔ lastSet history k = some p :=
  (getBFTParamsInForce tracks.settled above).trans (tracks.agrees k above p)

theorem getGeneratorKeysTracked {next} (tracks : Tracks db history low next) (above : low ≤ k) (gens : List Generator) :
    getGeneratorKeys db k = .ok gens ↔ lastSet history k = some gens :=
  (getGeneratorKeysInForce tracks.settled above).trans (tracks.agrees k above gens)

end LiskEngine.Liskbft
