import LiskEngine.BlockIdentity

/-! The root of the events of a block. A key has the position of its event and of its topic
in its last four bytes, so the keys of a block are distinct, and the root binds the list of
events. -/
namespace LiskEngine.Blockchain
open Codec List SparseTree Except
open Smt (CollisionFree)

theorem fromUint32Injective (small : n < 4294967296) (small' : m < 4294967296) (same : fromUint32 n = fromUint32 m) : n = m := by
  simp only [fromUint32,show range 4 = [0,1,2,3] from rfl,map_cons,map_nil,cons.injEq,and_true] at same
  obtain ⟨a,b,c,d⟩ := same
  have bytes := fun {x y : Nat} (eq : UInt8.ofNat x = UInt8.ofNat y) => congrArg UInt8.toNat eq
  have a := bytes a
  have b := bytes b
  have c := bytes c
  have d := bytes d
  simp only [UInt8.toNat_ofNat'] at a b c d
  omega

def numbers (events : List Event) : List Nat :=
  events.flatMap (fun e => (List.range e.topics.length).map (fun j => 4 * e.index + j))

structure Numbered (start : Nat) (events : List Event) : Prop where
  topics : ∀ e ∈ events, e.topics.length ≤ 4
  positions : ∀ i e, events[i]? = some e → e.index = start + i

theorem Numbered.tail (numbered : Numbered start (e::rest)) : Numbered (start+1) rest where
  topics e member := numbered.topics e (.tail _ member)
  positions i e found := by
    rw [numbered.positions (i+1) e found]
    omega

theorem numbersRange (numbered : Numbered start events) : ∀ n ∈ numbers events, 4*start ≤ n ∧ n < 4*(start+events.length) := by
  intro n mem
  obtain ⟨e,listed,inside⟩ := mem_flatMap.mp mem
  obtain ⟨j,below,rfl⟩ := mem_map.mp inside
  obtain ⟨i,fit,hit⟩ := mem_iff_getElem.mp listed
  have position := numbered.positions i e (by rw [← hit]; exact getElem?_eq_getElem fit)
  have few := numbered.topics e listed
  rw [mem_range] at below
  omega

theorem numbersSorted (numbered : Numbered start events) : (numbers events).Pairwise (· < ·) := by
  induction events generalizing start with
  | nil => exact List.Pairwise.nil
  | cons e rest ih =>
    have position := numbered.positions 0 e rfl
    have few := numbered.topics e (.head _)
    refine pairwise_append.mpr ⟨?_,ih numbered.tail,fun a first b later => ?_⟩
    · exact pairwise_map.mpr (pairwise_lt_range.imp (fun smaller => by omega))
    obtain ⟨j,below,rfl⟩ := mem_map.mp first
    have range := numbersRange numbered.tail b later
    rw [mem_range] at below
    omega

section
variable (text : Normalizer) (sha : Bytes → Bytes)

def eventData (e : Event) : Bytes := (e.encode text).getD []

def eventKey (topic : Bytes) (n : Nat) : Bytes := (sha topic).take eventTopicHashLengthBytes ++ fromUint32 n

def entriesOf (e : Event) : List (Bytes × Bytes) :=
  e.topics.zipIdx.map (fun topic => (eventKey sha topic.1 (4 * e.index + topic.2), eventData text e))

def eventEntries (events : List Event) : List (Bytes × Bytes) := events.flatMap (entriesOf text sha)

def eventTree (events : List Event) : Smt.Tree := Smt.treeOf 96 0 (eventEntries text sha events)

end

variable {text : Normalizer} {sha : Bytes → Bytes}

theorem eventEncodes (e : Event) : e.encode text = some (eventData text e) ∧ eventData text e ≠ [] := by
  obtain ⟨data,enc⟩ := Schema.encodeSome Event.schema (by decide) e.value
  have same : e.encode text = some data := enc
  obtain ⟨first,rest,field,_,rfl⟩ := Schema.encodeInv enc
  refine ⟨by rw [eventData,same,Option.getD_some],?_⟩
  rw [eventData,same,Option.getD_some]
  intro empty
  simp only [Kind.write,Writer.writeString,Writer.writeBytes] at field
  rw [fieldSmall wireType2Allowed (by decide),(append_eq_nil_iff.mp empty).1] at field
  have pos := Varint.putUvarintPos (8*1+wireType2)
  rw [(append_eq_nil_iff.mp (Option.some.inj field)).1] at pos
  simp at pos

section
variable {start : Nat} {events : List Event} (numbered : Numbered start events) (few : start + events.length ≤ 2 ^ 30)
include numbered few

theorem numberSmall (mem : e ∈ events) (below : j < e.topics.length) : 4*e.index+j < 4294967296 := by
  have inside : 4*e.index+j ∈ numbers events := mem_flatMap.mpr ⟨e,mem,mem_map.mpr ⟨j,mem_range.mpr below,rfl⟩⟩
  have range := numbersRange numbered _ inside
  norm_num at few
  omega

theorem keyPairsOf (mem : e ∈ events) : e.keyPairs text sha = some (entriesOf text sha e) := by
  rw [Event.keyPairs,(eventEncodes e).1,Option.map_some,entriesOf]
  refine congrArg _ (map_congr_left (fun topic listed => ?_))
  have below := snd_lt_of_mem_zipIdx listed
  have small := numberSmall numbered few mem below
  have high : u32 (e.index*4) = 4*e.index := by rw [u32Small (by omega),mul_comm]
  rw [eventKey,high,u32Small small]

theorem keyPairsAll : events.mapM (Event.keyPairs text sha) = some (events.map (entriesOf text sha)) := by
  have each : ∀ rest : List Event, (∀ e ∈ rest, e ∈ events) →
      rest.mapM (Event.keyPairs text sha) = some (rest.map (entriesOf text sha)) := by
    intro rest
    induction rest with
    | nil => exact fun _ => rfl
    | cons e rest ih =>
      intro inside
      simp [mapM_cons,keyPairsOf numbered few (inside e (.head _)),ih (fun e mem => inside e (.tail _ mem))]
  exact each events (fun _ mem => mem)

end

section
variable (size : ∀ data, (sha data).length = 32)
include size

theorem eventKeyEnd (topic : Bytes) (n : Nat) : (eventKey sha topic n).drop 8 = fromUint32 n :=
  drop_left' (by rw [length_take,size]; rfl)

theorem keyEnds (events : List Event) : (eventEntries text sha events).map (·.1.drop 8) = (numbers events).map fromUint32 := by
  rw [eventEntries,numbers,map_flatMap,map_flatMap]
  refine flatMap_congr (fun e _ => ?_)
  rw [entriesOf,map_map,map_map,range_eq_range',← zipIdx_map_snd,map_map]
  exact map_congr_left (fun topic _ => eventKeyEnd size topic.1 _)

theorem eventKeysDistinct (numbered : Numbered start events) (few : start+events.length ≤ 2^30) :
    ((eventEntries text sha events).map Prod.fst).Nodup := by
  refine List.Nodup.of_map (·.drop 8) ?_
  rw [map_map]
  have ends : (eventEntries text sha events).map ((·.drop 8) ∘ Prod.fst) = (numbers events).map fromUint32 :=
    keyEnds size events
  rw [ends,List.Nodup,pairwise_map]
  refine (numbersSorted numbered).imp_of_mem (fun {a b} inA inB less same => ?_)
  have rangeB := numbersRange numbered b inB
  norm_num at few
  have equal := fromUint32Injective (by omega) (by omega) same
  omega

theorem eventKeysLength (events : List Event) : ∀ kv ∈ eventEntries text sha events, kv.1.length = 12 := by
  intro kv mem
  obtain ⟨e,_,inside⟩ := mem_flatMap.mp mem
  obtain ⟨topic,_,rfl⟩ := mem_map.mp inside
  simp [eventKey,size,fromUint32,eventTopicHashLengthBytes]

end

theorem eventValues (events : List Event) : ∀ kv ∈ eventEntries text sha events, kv.2 ≠ [] := by
  intro kv mem
  obtain ⟨e,_,inside⟩ := mem_flatMap.mp mem
  obtain ⟨topic,_,rfl⟩ := mem_map.mp inside
  exact (eventEncodes e).2

theorem writtenFresh (filled : ∀ kv ∈ keyValues, kv.2 ≠ []) : Smt.written keyValues [] = keyValues := by
  have vs : ∀ kv ∈ keyValues, (kv.1,if kv.2.length ≠ 0 then some kv.2 else none) = (kv.1,some kv.2) := by
    intro kv mem
    rw [if_pos (by simpa using filled kv mem)]
  rw [Smt.written,Smt.writes,map_congr_left vs]
  simp [written,filterMap_map,Function.comp_def]

theorem updateFresh (hashing : Smt.Hashing sha S) (pos : 0 < len) (keys : ∀ kv ∈ keyValues, kv.1.length = len)
    (nodup : (keyValues.map Prod.fst).Nodup) (filled : ∀ kv ∈ keyValues, kv.2 ≠ []) (known : S (Smt.treeOf (8*len) 0 keyValues)) :
    ∃ s, (Smt.newTrie sha (Smt.emptyHash sha) len).update sha Smt.idealStore.toDB OrderedMap.empty
      (keyValues.map Prod.fst) (keyValues.map Prod.snd) = .ok (s,⟨Smt.treeRoot sha (Smt.treeOf (8*len) 0 keyValues),len,8⟩) := by
  have empty : Smt.treeOf (8*len) 0 [] = .empty := buildNil _ _
  have opened : (Smt.newTrie sha (Smt.emptyHash sha) len).root = Smt.emptyHash sha := by simp [Smt.newTrie]
  by_cases absent : keyValues = []
  · subst absent
    refine ⟨OrderedMap.empty,?_⟩
    rw [empty,Smt.newTrie,ite_self]
    rfl
  · have length : (Smt.newTrie sha (Smt.emptyHash sha) len).keyLength = len := rfl
    have region : Smt.Region len (8*len) 0 (·.length = len) [] keyValues :=
      Smt.Region.whole (fun _ same => same) (by simp) (by simp) keys nodup
    obtain ⟨s,run,_⟩ := Smt.updateWritten Smt.idealStore hashing length rfl (Smt.shapeEight _) pos region absent
      (by rw [empty]; exact hashing.empty) (by rw [writtenFresh filled]; exact known)
      (by rw [empty]; intro e mem; cases mem) (by rw [empty,opened]; rfl) (s := OrderedMap.empty)
      ⟨fun found => absurd empty found,by rw [empty]; simp⟩ (by rw [empty]; simp)
    rw [writtenFresh filled] at run
    exact ⟨s,run⟩

theorem eventApart (size : ∀ data, (sha data).length = 32) (numbered : Numbered start events)
    (few : start+events.length ≤ 2^30) : SparseTree.Apart Smt.keyBit 96 0 (eventEntries text sha events) :=
  apartOf (Smt.keySeparated 12) (eventKeysLength size events) (eventKeysDistinct size numbered few)

theorem calculateEventRootOf (size : ∀ data, (sha data).length = 32) (hashing : Smt.Hashing sha S)
    (numbered : Numbered 0 events) (few : events.length ≤ 2^30) (known : S (eventTree text sha events)) :
    calculateEventRoot text sha events = .ok (Smt.treeRoot sha (eventTree text sha events)) := by
  have pairs : events.mapM (Event.keyPairs text sha) = some (events.map (entriesOf text sha)) :=
    keyPairsAll numbered (by simpa using few)
  have flat : (events.map (entriesOf text sha)).flatten = eventEntries text sha events := flatMap_def.symm
  obtain ⟨s,run⟩ := updateFresh hashing (by decide : 0 < 12) (eventKeysLength size events)
    (eventKeysDistinct size numbered (by simpa using few)) (eventValues events) known
  unfold calculateEventRoot
  simp only [pairs,flat]
  exact congrArg (· >>= _) run

structure EventList (text : Normalizer) (events : List Event) : Prop where
  valid : ∀ e ∈ events, Event.schema.Valid text e.value
  topics : ∀ e ∈ events, 1 ≤ e.topics.length ∧ e.topics.length ≤ 4
  positions : ∀ i (e : Event), events[i]? = some e → e.index = i
  few : events.length < 2 ^ 30
  short : ∀ e ∈ events, ∀ data, e.encode text = some data → data.length < 2 ^ 63

theorem EventList.numbered (list : EventList text events) : Numbered 0 events where
  topics e member := (list.topics e member).2
  positions i e found := by rw [list.positions i e found,zero_add]

theorem EventList.small (list : EventList text events) : 0+events.length ≤ 2^30 := by
  have few := list.few
  omega

theorem eventDataInjective (valid : Event.schema.Valid text e.value) (valid' : Event.schema.Valid text e'.value)
    (short : ∀ data, e.encode text = some data → data.length < 2^63) (same : eventData text e = eventData text e') : e = e' := by
  have enc : Event.schema.encode text e.value = some (eventData text e) := (eventEncodes e).1
  have enc' : Event.schema.encode text e'.value = some (eventData text e) := by rw [same]; exact (eventEncodes e').1
  have bound := short _ enc
  have inc : Event.schema.Increasing 0 := by simp [Event.schema,Schema.Increasing,Kind.Increasing]
  have read := Schema.decodeEncoded (by decide) inc valid enc bound
  have read' := Schema.decodeEncoded (by decide) inc valid' enc' bound
  have vs : e.value = e'.value := ok.inj (read.symm.trans read')
  cases e
  cases e'
  cases vs
  rfl

section
variable (size : ∀ data, (sha data).length = 32)
include size

theorem entryDetermines (list : EventList text events)
    (list' : EventList text events') (inside : ∀ kv ∈ eventEntries text sha events, kv ∈ eventEntries text sha events') {i : Nat}
    (hit : events[i]? = some e) : events'[i]? = some e := by
  have mem := mem_of_getElem? hit
  obtain ⟨topic,rest,topics⟩ := exists_cons_of_length_pos (list.topics e mem).1
  have first : (eventKey sha topic (4*e.index+0),eventData text e) ∈ entriesOf text sha e := by
    rw [entriesOf,topics]
    exact .head _
  obtain ⟨e',mem',entry⟩ := mem_flatMap.mp (inside _ (mem_flatMap.mpr ⟨e,mem,first⟩))
  obtain ⟨topic',listed,same⟩ := mem_map.mp entry
  have below := snd_lt_of_mem_zipIdx listed
  obtain ⟨key,data⟩ := Prod.mk.inj same
  have ends := congrArg (·.drop 8) key
  simp only [eventKeyEnd size] at ends
  have equal := eventDataInjective (list.valid e mem) (list'.valid e' mem') (list.short e mem) data.symm
  subst equal
  obtain ⟨k,fit,place⟩ := mem_iff_getElem.mp mem'
  have at' : events'[k]? = some e := by rw [← place]; exact getElem?_eq_getElem fit
  rw [← list.positions i e hit,list'.positions k e at',at']

theorem entriesDetermine {events events' : List Event} (list : EventList text events)
    (list' : EventList text events') (same : (eventEntries text sha events).Perm (eventEntries text sha events')) : events = events' := by
  refine ext_getElem? (fun i => ?_)
  cases hit : events[i]? with
  | some e => rw [entryDetermines size list list' (fun kv mem => same.mem_iff.mp mem) hit]
  | none =>
    cases hit' : events'[i]? with
    | none => rfl
    | some e => exact absurd (entryDetermines size list' list (fun kv mem => same.mem_iff.mpr mem) hit') (by simp [hit])

theorem EventList.apart (list : EventList text events) : SparseTree.Apart Smt.keyBit 96 0 (eventEntries text sha events) :=
  eventApart size list.numbered list.small

theorem freeEventsDetermine (list : EventList text events)
    (list' : EventList text events') {root} (first : calculateEventRoot text sha events = .ok root)
    (second : calculateEventRoot text sha events' = .ok root)
    (free : CollisionFree sha (Smt.hashedBy sha [eventTree text sha events,eventTree text sha events'])) : events = events' := by
  have hashes : Smt.hashSize sha = 32 := size []
  have sized : ∀ t ∈ [eventTree text sha events,eventTree text sha events'], ∀ e ∈ t.entries, e.1.length = 12 := by
    intro t listed e mem
    rcases mem_pair.mp listed with rfl | rfl
    · exact eventKeysLength size events e ((buildEntries (list.apart size)).mem_iff.mp mem)
    · exact eventKeysLength size events' e ((buildEntries (list'.apart size)).mem_iff.mp mem)
  have full : ∀ t ∈ [eventTree text sha events,eventTree text sha events'], t.Full := by
    intro t listed
    rcases mem_pair.mp listed with rfl | rfl <;> exact buildFull _ _ _
  have hashing := Smt.hashingKnown (by rw [hashes]; exact size) sized full free
  have known : Smt.Known [eventTree text sha events,eventTree text sha events'] (eventTree text sha events) :=
    .inr ⟨_,mem_cons_self,selfSubtree _⟩
  have known' : Smt.Known [eventTree text sha events,eventTree text sha events'] (eventTree text sha events') :=
    .inr ⟨_,mem_cons_of_mem _ (.head _),selfSubtree _⟩
  rw [calculateEventRootOf size hashing list.numbered list.few.le known] at first
  rw [calculateEventRootOf size hashing list'.numbered list'.few.le known'] at second
  have trees : build Smt.keyBit 96 0 (eventEntries text sha events) = eventTree text sha events' :=
    hashing.unique _ _ known known' ((ok.inj first).trans (ok.inj second).symm)
  have perm := buildEntries (list.apart size)
  rw [trees] at perm
  exact entriesDetermine size list list' (perm.symm.trans (buildEntries (list'.apart size)))

end

theorem eventRootBinds (text : Normalizer) (sha : Bytes → Bytes) (size : ∀ data, (sha data).length = 32) (events events' : List Event)
    (list : EventList text events) (list' : EventList text events') :
    (∃ pairs, events.mapM (Event.keyPairs text sha) = some pairs ∧ (pairs.flatten.map Prod.fst).Nodup) ∧
      ∀ root, calculateEventRoot text sha events = .ok root → calculateEventRoot text sha events' = .ok root → events = events' ∨
        ∃ x ∈ Smt.hashedBy sha [eventTree text sha events, eventTree text sha events'],
          ∃ y ∈ Smt.hashedBy sha [eventTree text sha events, eventTree text sha events'], x ≠ y ∧ sha x = sha y := by
  refine ⟨⟨_,keyPairsAll list.numbered list.small,?_⟩,fun root first second =>
    boundOrCollides (freeEventsDetermine size list list' first second)⟩
  exact eventKeysDistinct size list.numbered list.small

def sampleEvents (data : UInt8) : List Event :=
  [⟨"token","mint",[1,data],[[7]],5,0⟩,⟨"token","burn",[],[[7],[8,9]],5,1⟩]

theorem sampleEventList (data : UInt8) (known : data ∈ [2,3]) : EventList asciiText (sampleEvents data) where
  valid e mem := by
    simp only [sampleEvents,mem_cons,not_mem_nil,or_false] at mem
    rcases mem with rfl | rfl <;> simp [Event.schema,Event.value,Schema.Valid,Kind.Valid,asciiText,Normalizer.plain]
  topics := by simp [sampleEvents]
  positions i e found := by
    rcases i with _ | _ | i
    · rw [← Option.some.inj found]
    · rw [← Option.some.inj found]
    · cases found
  few := by simp [sampleEvents]
  short := by
    have all : ∀ data ∈ [2,3], ∀ e ∈ sampleEvents data, ((e.encode asciiText).getD []).length < 2^63 := by decide +kernel
    intro e mem data enc
    simpa [enc] using all _ known e mem

theorem eventRootBindsSample :
    (∃ pairs, (sampleEvents 2).mapM (Event.keyPairs asciiText Smt.sampleSha) = some pairs ∧ (pairs.flatten.map Prod.fst).Nodup) ∧
      ∀ root, calculateEventRoot asciiText Smt.sampleSha (sampleEvents 2) = .ok root →
        calculateEventRoot asciiText Smt.sampleSha (sampleEvents 3) = .ok root →
        ∃ x ∈ Smt.hashedBy Smt.sampleSha ([sampleEvents 2, sampleEvents 3].map (eventTree asciiText Smt.sampleSha)),
          ∃ y ∈ Smt.hashedBy Smt.sampleSha ([sampleEvents 2, sampleEvents 3].map (eventTree asciiText Smt.sampleSha)),
            x ≠ y ∧ Smt.sampleSha x = Smt.sampleSha y := by
  obtain ⟨pairs,binds⟩ := eventRootBinds asciiText Smt.sampleSha Smt.sampleShaLength (sampleEvents 2) (sampleEvents 3)
    (sampleEventList 2 (by decide)) (sampleEventList 3 (by decide))
  exact ⟨pairs,fun root first second => (binds root first second).resolve_left (by decide)⟩

end LiskEngine.Blockchain
