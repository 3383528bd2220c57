import LiskEngine.BlockTables

/-! The stored blocks as a list, newest first, with the temporary blocks by height. -/
namespace LiskEngine.Blockchain
open Codec List Option OrderedMap Schema
open Diffdb (applyWrites)
open Smt (CollisionFree)

structure Listed where
  blocks : List (Block × List Event)
  temp : OrderedMap Nat Block

namespace Listed

def empty : Listed := ⟨[],OrderedMap.empty⟩

def byID (l : Listed) (id : Bytes) : Option (Block × List Event) := l.blocks.find? (fun e => e.1.header.id = id)

def byHeight (l : Listed) (height : Nat) : Option (Block × List Event) := l.blocks.find? (fun e => e.1.header.height = height)

def transactions (l : Listed) : List Transaction := l.blocks.flatMap (fun e => e.1.transactions)

def save (l : Listed) (block : Block) (events : List Event) (removeTemp : Bool) : Listed :=
  ⟨(block, events) :: l.blocks,if removeTemp then l.temp.del block.header.height else l.temp⟩

def remove (l : Listed) (block : Block) (saveTemp : Bool) : Listed :=
  ⟨l.blocks.tail,if saveTemp then l.temp.set block.header.height block else l.temp⟩

structure Distinct (l : Listed) : Prop where
  ids : (l.blocks.map (fun e => e.1.header.id)).Nodup
  heights : (l.blocks.map (fun e => e.1.header.height)).Nodup
  transactions : (l.transactions.map (·.id)).Nodup

end Listed

def nonEmpty {α : Type} (xs : List α) : Option (List α) := if xs.length > 0 then some xs else none

structure Holds (db : BlockDB) (l : Listed) : Prop where
  blockHeaders : ∀ id, db.blockHeaders.get id = (l.byID id).map (fun e => e.1.header)
  blockIDs : ∀ height, db.blockIDs.get height = (l.byHeight height).map (fun e => e.1.header.id)
  transactionIDs : ∀ id, db.transactionIDs.get id = (l.byID id).bind (fun e => nonEmpty (e.1.transactions.map (·.id)))
  transactions : ∀ id, db.transactions.get id = l.transactions.find? (fun t => t.id = id)
  assets : ∀ id, db.assets.get id = (l.byID id).bind (fun e => nonEmpty e.1.assets)
  events : ∀ height, db.events.get height = (l.byHeight height).bind (fun e => nonEmpty e.2)
  temp : db.temp = l.temp

theorem holdsEmpty : Holds BlockDB.empty Listed.empty where
  blockHeaders _ := rfl
  blockIDs _ := rfl
  transactionIDs _ := rfl
  transactions _ := rfl
  assets _ := rfl
  events _ := rfl
  temp := rfl

section
variable {α : Type} {x : α} {xs : List α}

section
variable {κ : Type} [DecidableEq κ]

theorem findOwn {key : α → κ} (nodup : (xs.map key).Nodup) (mem : x ∈ xs) : xs.find? (fun y => key y = key x) = some x := by
  induction xs with
  | nil => cases mem
  | cons y rest ih =>
    obtain ⟨fresh,tail⟩ := nodup_cons.mp nodup
    rcases mem_cons.mp mem with rfl | later
    · simp
    · rw [find?_cons_of_neg,ih tail later]
      simpa using fun same : key y = key x => fresh (same ▸ mem_map_of_mem later)

theorem findOther (key : α → κ) (x : α) (xs : List α) {k} (apart : k ≠ key x) :
    (x::xs).find? (fun y => key y = k) = xs.find? (fun y => key y = k) :=
  find?_cons_of_neg (by simpa using fun same => apart same.symm)

theorem findHead (key : α → κ) (x : α) (xs : List α) : (x::xs).find? (fun y => key y = key x) = some x :=
  find?_cons_of_pos (by simp)

theorem findNone {key} {k : κ} (fresh : k ∉ xs.map key) : xs.find? (fun y => key y = k) = none := by
  rw [find?_eq_none]
  intro y mem
  simpa using fun same : key y = k => fresh (same ▸ mem_map_of_mem mem)

end

end

section
variable {txs : List Transaction} {table : OrderedMap Bytes Transaction} {rest : List Transaction}

theorem setTransactions (nodup : (txs.map (·.id)).Nodup) (held : ∀ id, table.get id = rest.find? (·.id = id))
    (id : Bytes) : (txs.foldl (fun table tx => table.set tx.id tx) table).get id = (txs ++ rest).find? (·.id = id) := by
  induction txs generalizing table rest with
  | nil => exact held id
  | cons tx others ih =>
    obtain ⟨fresh,tail⟩ := nodup_cons.mp nodup
    have next : ∀ id, (table.set tx.id tx).get id = (tx::rest).find? (·.id = id) := by
      intro id
      rw [getSet]
      split
      · rename_i same
        rw [same]
        exact (findHead Transaction.id tx rest).symm
      · rename_i apart
        rw [held]
        exact (findOther Transaction.id tx rest apart).symm
    refine (ih tail next).trans ?_
    by_cases same : tx.id = id
    · have gone : others.find? (·.id = id) = none := findNone (same ▸ fresh)
      simp [same,gone]
    · simp [same]

theorem delTransactions (nodup : ((txs ++ rest).map (·.id)).Nodup)
    (held : ∀ id, table.get id = (txs ++ rest).find? (·.id = id)) (id : Bytes) :
    (txs.foldl (fun table tx => table.del tx.id) table).get id = rest.find? (·.id = id) := by
  induction txs generalizing table with
  | nil => exact held id
  | cons tx others ih =>
    obtain ⟨fresh,tail⟩ := nodup_cons.mp nodup
    refine ih tail (fun id => ?_)
    rw [getDel]
    split
    · rename_i same
      have gone : (others ++ rest).find? (·.id = tx.id) = none := findNone fresh
      rw [same,gone]
    · rename_i apart
      rw [held,cons_append,find?_cons_of_neg (by simpa using fun same => apart same.symm)]

end

theorem forallLeft {α β : Type} {R} {xs : List α} {ys : List β} (all : List.Forall₂ R xs ys) : ∀ x ∈ xs, ∃ y ∈ ys, R x y := by
  induction all with
  | nil => simp
  | cons head tail ih =>
    intro x mem
    rcases mem_cons.mp mem with rfl | later
    · exact ⟨_,mem_cons_self,head⟩
    · obtain ⟨y,inside,related⟩ := ih x later
      exact ⟨y,mem_cons_of_mem _ inside,related⟩

section
variable {κ β γ : Type} [LinearOrder κ] {table : OrderedMap κ γ} {look look' : κ → Option β} (part : Option β → Option γ)
  {key : κ}

section
variable (held : ∀ k, table.get k = part (look k))
include held

theorem setPart {v} (own : part (look' key) = some v)
    (others : ∀ k, k ≠ key → look' k = look k) (k : κ) : (table.set key v).get k = part (look' k) := by
  rw [getSet]
  split
  · rename_i same
    rw [same,own]
  · rename_i apart
    rw [others k apart,held]

theorem delPart (own : part (look' key) = none)
    (others : ∀ k, k ≠ key → look' k = look k) (k : κ) : (table.del key).get k = part (look' k) := by
  rw [getDel]
  split
  · rename_i same
    rw [same,own]
  · rename_i apart
    rw [others k apart,held]

theorem samePart (own : part (look' key) = part (look key))
    (others : ∀ k, k ≠ key → look' k = look k) (k : κ) : table.get k = part (look' k) := by
  by_cases same : k = key
  · rw [same,held,own]
  · rw [others k same,held]

end

end

section
variable {κ α β : Type} [LinearOrder κ] {table : OrderedMap κ (List α)} {look look' : κ → Option β} (part : β → List α)
  {key : κ} {x : β}

theorem setNonEmpty (held : ∀ k, table.get k = (look k).bind (fun y => nonEmpty (part y))) (fresh : look key = none)
    (own : look' key = some x) (others : ∀ k, k ≠ key → look' k = look k) (k : κ) :
    (if (part x).length > 0 then table.set key (part x) else table).get k = (look' k).bind (fun y => nonEmpty (part y)) := by
  split
  · rename_i found
    exact setPart (fun y => y.bind (fun y => nonEmpty (part y))) held (by rw [own]; exact if_pos found) others k
  · rename_i absent
    exact samePart (fun y => y.bind (fun y => nonEmpty (part y))) held (by rw [own,fresh]; exact if_neg absent) others k

theorem delNonEmpty (held : ∀ k, table.get k = (look k).bind (fun y => nonEmpty (part y))) (last : look key = some x)
    (own : look' key = none) (others : ∀ k, k ≠ key → look' k = look k) (k : κ) :
    (if (part x).length > 0 then table.del key else table).get k = (look' k).bind (fun y => nonEmpty (part y)) := by
  split
  · exact delPart (fun y => y.bind (fun y => nonEmpty (part y))) held (by rw [own]; rfl) others k
  · rename_i absent
    exact samePart (fun y => y.bind (fun y => nonEmpty (part y))) held (by rw [own,last]; exact (if_neg absent).symm) others k

end

section
variable {db : BlockDB} {l : Listed} {block : Block} {events : List Event}

def entryID (e : Block × List Event) : Bytes := e.1.header.id
def entryHeight (e : Block × List Event) : Nat := e.1.header.height

theorem holdsSave (holds : Holds db l) {keep} (off : keep ≤ -1) {fin removeTemp} (nodup : (l.save block events removeTemp).Distinct) :
    Holds (db.saveBlock keep block events fin removeTemp) (l.save block events removeTemp) := by
  obtain ⟨freshID,_⟩ := nodup_cons.mp nodup.ids
  obtain ⟨freshHeight,_⟩ := nodup_cons.mp nodup.heights
  have noID : l.byID block.header.id = none := findNone freshID
  have noHeight : l.byHeight block.header.height = none := findNone freshHeight
  have ownID : (l.save block events removeTemp).byID block.header.id = some (block,events) := findHead entryID _ _
  have ownHeight : (l.save block events removeTemp).byHeight block.header.height = some (block,events) :=
    findHead entryHeight _ _
  have otherIDs : ∀ id, id ≠ block.header.id → (l.save block events removeTemp).byID id = l.byID id :=
    fun _ => findOther entryID (block,events) l.blocks
  have oh : ∀ height, height ≠ block.header.height →
      (l.save block events removeTemp).byHeight height = l.byHeight height := fun _ => findOther entryHeight (block,events) l.blocks
  have kept : (db.saveBlock keep block events fin removeTemp).events =
      if events.length > 0 then db.events.set block.header.height events else db.events := by
    simp only [BlockDB.saveBlock,eventsKept]
    rw [if_neg (by omega)]
  refine ⟨fun id => ?_,fun height => ?_,fun id => ?_,fun id => ?_,fun id => ?_,fun height => ?_,?_⟩
  · exact setPart (Option.map (·.1.header)) holds.blockHeaders (by rw [ownID]; rfl) otherIDs id
  · exact setPart (Option.map (·.1.header.id)) holds.blockIDs (by rw [ownHeight]; rfl) oh height
  · have added := setNonEmpty (fun e => e.1.transactions.map (·.id)) holds.transactionIDs noID ownID otherIDs id
    rw [length_map] at added
    exact added
  · have own : (block.transactions.map (·.id)).Nodup := by
      have all := nodup.transactions
      rw [Listed.transactions,Listed.save,flatMap_cons,map_append] at all
      exact (nodup_append.mp all).1
    exact setTransactions own holds.transactions id
  · exact setNonEmpty (·.1.assets) holds.assets noID ownID otherIDs id
  · rw [kept]
    exact setNonEmpty (·.2) holds.events noHeight ownHeight oh height
  · show (if removeTemp then db.temp.del block.header.height else db.temp) = _
    rw [holds.temp]
    rfl

theorem holdsRemove {rest} (top : l.blocks = (block,events)::rest) (holds : Holds db l) (nodup : l.Distinct)
    (saveTemp : Bool) : Holds (db.removeBlock block saveTemp) (l.remove block saveTemp) := by
  obtain ⟨ids,heights,txs⟩ := nodup
  obtain ⟨blocks,temp⟩ := l
  cases top
  have lastID : Listed.byID ⟨(block,events)::rest,temp⟩ block.header.id = some (block,events) := findHead entryID _ _
  have ownID : (Listed.remove ⟨(block,events)::rest,temp⟩ block saveTemp).byID block.header.id = none :=
    findNone (nodup_cons.mp ids).1
  have ownHeight : (Listed.remove ⟨(block,events)::rest,temp⟩ block saveTemp).byHeight block.header.height = none :=
    findNone (nodup_cons.mp heights).1
  have otherIDs : ∀ id, id ≠ block.header.id → (Listed.remove ⟨(block,events)::rest,temp⟩ block saveTemp).byID id =
      Listed.byID ⟨(block,events)::rest,temp⟩ id := fun _ apart => (findOther entryID _ _ apart).symm
  have oh : ∀ height, height ≠ block.header.height →
      (Listed.remove ⟨(block,events)::rest,temp⟩ block saveTemp).byHeight height =
        Listed.byHeight ⟨(block,events)::rest,temp⟩ height := fun _ apart => (findOther entryHeight _ _ apart).symm
  refine ⟨fun id => ?_,fun height => ?_,fun id => ?_,fun id => ?_,fun id => ?_,fun height => ?_,?_⟩
  · exact delPart (Option.map (·.1.header)) holds.blockHeaders (by rw [ownID]; rfl) otherIDs id
  · exact delPart (Option.map (·.1.header.id)) holds.blockIDs (by rw [ownHeight]; rfl) oh height
  · have gone := delNonEmpty (fun e => e.1.transactions.map (·.id)) holds.transactionIDs lastID ownID otherIDs id
    rw [length_map] at gone
    exact gone
  · exact delTransactions txs holds.transactions id
  · exact delNonEmpty (·.1.assets) holds.assets lastID ownID otherIDs id
  · exact delPart (fun e => e.bind (fun e => nonEmpty e.2)) holds.events (by rw [ownHeight]; rfl) oh height
  · show (if saveTemp then db.temp.set block.header.height block else db.temp) = _
    rw [holds.temp]
    rfl

theorem mapMOwn {read} {txs : List Transaction} (own : ∀ t ∈ txs, read t.id = some t) : (txs.map (·.id)).mapM read = some txs := by
  induction txs with
  | nil => rfl
  | cons t rest ih =>
    rw [map_cons,mapM_cons,own t (by simp),ih (fun t' mem => own t' (by simp [mem]))]
    rfl

theorem getTransactionsListed (holds : Holds db l) (nodup : l.Distinct) {id e} (entry : l.byID id = some e) :
    db.getTransactions id = some e.1.transactions := by
  have own : ∀ t ∈ e.1.transactions, db.transactions.get t.id = some t := by
    intro t mem
    rw [holds.transactions]
    exact findOwn nodup.transactions (mem_flatMap.mpr ⟨e,mem_of_find?_eq_some entry,mem⟩)
  unfold BlockDB.getTransactions
  rw [holds.transactionIDs,entry,bind_some,nonEmpty]
  split
  · rename_i absent
    split at absent
    · cases absent
    · rename_i empty
      rw [length_map] at empty
      exact congrArg some (eq_nil_of_length_eq_zero (by omega)).symm
  · rename_i txIDs found
    split at found
    · cases found
      exact mapMOwn own
    · cases found

theorem nonEmptyGetD {α : Type} (xs : List α) : (nonEmpty xs).getD [] = xs := by
  unfold nonEmpty
  split
  · rfl
  · exact (eq_nil_of_length_eq_zero (by omega)).symm

theorem getBlockListed (holds : Holds db l) (nodup : l.Distinct) (id : Bytes) : db.getBlock id = (l.byID id).map Prod.fst := by
  unfold BlockDB.getBlock
  rw [holds.blockHeaders,holds.assets]
  cases entry : l.byID id with
  | none => rfl
  | some e =>
    rw [getTransactionsListed holds nodup entry]
    simp only [map_some,bind_some,bind,nonEmptyGetD]

theorem getBlockByHeightListed (holds : Holds db l) (nodup : l.Distinct) (height : Nat) :
    db.getBlockByHeight height = (l.byHeight height).map Prod.fst := by
  unfold BlockDB.getBlockByHeight
  rw [holds.blockIDs]
  cases entry : l.byHeight height with
  | none => rfl
  | some e =>
    have own : l.byID e.1.header.id = some e := findOwn nodup.ids (mem_of_find?_eq_some entry)
    show db.getBlock e.1.header.id = some e.1
    rw [getBlockListed holds nodup,own]
    rfl

end

section
variable {window : List (Block × List Event)} {tip : Nat} {e : Block × List Event}

def Consecutive (window : List (Block × List Event)) (tip : Nat) : Prop :=
  ∀ i e, window[i]? = some e → entryHeight e + i = tip

theorem Consecutive.distinct (consec : Consecutive window tip) : (window.map entryHeight).Nodup := by
  rw [nodup_iff_getElem?_ne_getElem?]
  intro i j less bound same
  rw [length_map] at bound
  simp only [getElem?_map,getElem?_eq_getElem bound,getElem?_eq_getElem (less.trans bound),map_some,some.injEq] at same
  have first := consec i _ (getElem?_eq_getElem (less.trans bound))
  have second := consec j _ (getElem?_eq_getElem bound)
  omega

theorem Consecutive.cons (consec : Consecutive window tip) (next : window ≠ [] → entryHeight e = tip+1) :
    Consecutive (e::window) (entryHeight e) := by
  intro i e' at'
  cases i with
  | zero => rw [← some.inj at',Nat.add_zero]
  | succ i =>
    have own := consec i e' at'
    have := next (fun nil => by rw [nil] at at'; cases at')
    omega

theorem Consecutive.tail (consec : Consecutive (e::window) tip) : Consecutive window (tip-1) := by
  intro i e' at'
  have := consec (i+1) e' at'
  omega

theorem Consecutive.take (consec : Consecutive window tip) (n : Nat) : Consecutive (window.take n) tip := by
  intro i e at'
  rw [getElem?_take] at at'
  split at at'
  · exact consec i e at'
  · cases at'

end

section
variable (text : Normalizer) (sha : Bytes → Bytes)

/-- A block whose strings are normal, whose IDs are those of its encodings and whose encodings are byte
strings of the source. -/
structure Storable (block : Block) : Prop where
  valid : Block.schema.Valid text block.value
  sealed : block.Sealed text sha
  short : Short (block.encode text)
  assets : Short (encodableListToBytes text (BlockAsset.encode text) block.assets)

structure StorableEvents (events : List Event) : Prop where
  valid : ∀ e ∈ events, Event.schema.Valid text e.value
  short : Short (encodableListToBytes text (Event.encode text) events)

structure Listed.Storable (l : Listed) : Prop where
  blocks : ∀ e ∈ l.blocks, Blockchain.Storable text sha e.1 ∧ StorableEvents text e.2
  temp : ∀ height b, l.temp.get height = some b → Blockchain.Storable text sha b

end

section
variable {text : Normalizer} {sha : Bytes → Bytes}

theorem partsShort {b : Block} (short : Short (b.encode text)) :
    Short (b.header.encode text) ∧ ∀ t ∈ b.transactions, Short (t.encode text) := by
  obtain ⟨data,enc⟩ : ∃ data, b.encode text = some data := encodeSome Block.schema (by decide) b.value
  have len := short data enc
  obtain ⟨a,_,head,others,rfl⟩ := encodeInv enc
  obtain ⟨c,_,txs,tail,rfl⟩ := encodeInv others
  obtain ⟨headerData,headerEncoded,headerField⟩ := messageRaw head
  obtain ⟨txDatas,txEncoded,txField⟩ := messagesRaw txs
  simp only [length_append] at len
  constructor
  · intro d same
    obtain rfl : headerData = d := some.inj (headerEncoded.symm.trans same)
    have := bytesFieldLength headerField
    omega
  · intro t mem d same
    obtain ⟨d',inside,own⟩ := forallLeft txEncoded t mem
    obtain rfl : d' = d := some.inj (own.symm.trans same)
    have := arrayLength txField d' inside
    omega

section
variable {b : Block} (storable : Storable text sha b)

include storable

theorem Storable.headerHeight : b.header.height < 4294967296 := by
  obtain ⟨⟨v,same,valid⟩,_⟩ := storable.valid
  cases same
  exact valid.2.2.1

theorem Storable.header : BlockHeader.schema.Valid text b.header.value ∧ Short (b.header.encode text) ∧
    ∀ data, b.header.encode text = some data → b.header.id = sha data := by
  obtain ⟨⟨v,same,valid⟩,_⟩ := storable.valid
  cases same
  refine ⟨valid,(partsShort storable.short).1,fun data enc => ?_⟩
  obtain ⟨data',own,id⟩ := storable.sealed.header
  obtain rfl : data' = data := some.inj (own.symm.trans enc)
  exact id

theorem Storable.transaction {t} (mem : t ∈ b.transactions) : Transaction.schema.Valid text t.value ∧
    Short (t.encode text) ∧ ∀ data, t.encode text = some data → t.id = sha data := by
  obtain ⟨v,same,valid⟩ := storable.valid.2.1 (some t.value) (mem_map_of_mem mem)
  cases same
  refine ⟨valid,(partsShort storable.short).2 t mem,fun data enc => ?_⟩
  obtain ⟨data',own,id⟩ := storable.sealed.transactions t mem
  obtain rfl : data' = data := some.inj (own.symm.trans enc)
  exact id

theorem Storable.asset {a} (mem : a ∈ b.assets) : BlockAsset.schema.Valid text a.value := by
  obtain ⟨v,same,valid⟩ := storable.valid.2.2.1 (some a.value) (mem_map_of_mem mem)
  cases same
  exact valid

end

theorem nonEmptySome {α : Type} {xs ys : List α} (found : nonEmpty xs = some ys) : ys = xs := by
  unfold nonEmpty at found
  split at found
  · exact (Option.some.inj found).symm
  · cases found

theorem readableOf {db l} (size : ∀ data, (sha data).length = 32) (holds : Holds db l) (storable : l.Storable text sha) :
    Readable text sha db := by
  have listedID : ∀ {id e}, l.byID id = some e → Storable text sha e.1 :=
    fun entry => (storable.blocks _ (mem_of_find?_eq_some entry)).1
  refine ⟨fun id h stored => ?_,fun id t stored => ?_,fun id txIDs stored => ?_,fun id assets stored => ?_,
    fun height events stored => ?_,fun height b stored => ?_⟩
  · rw [holds.blockHeaders] at stored
    obtain ⟨e,entry,rfl⟩ := map_eq_some_iff.mp stored
    exact (listedID entry).header
  · rw [holds.transactions] at stored
    obtain ⟨e,listed,mem⟩ := mem_flatMap.mp (mem_of_find?_eq_some stored)
    exact (storable.blocks e listed).1.transaction mem
  · rw [holds.transactionIDs] at stored
    obtain ⟨e,entry,found⟩ := bind_eq_some_iff.mp stored
    rw [nonEmptySome found]
    intro txID inside
    obtain ⟨t,mem,rfl⟩ := mem_map.mp inside
    obtain ⟨data,_,id⟩ := (listedID entry).sealed.transactions t mem
    rw [id]
    exact size data
  · rw [holds.assets] at stored
    obtain ⟨e,entry,found⟩ := bind_eq_some_iff.mp stored
    rw [nonEmptySome found]
    exact ⟨fun a mem => (listedID entry).asset mem,(listedID entry).assets⟩
  · rw [holds.events] at stored
    obtain ⟨e,entry,found⟩ := bind_eq_some_iff.mp stored
    rw [nonEmptySome found]
    have events := (storable.blocks e (mem_of_find?_eq_some entry)).2
    exact ⟨events.valid,events.short⟩
  · rw [holds.temp] at stored
    have block := storable.temp height b stored
    exact ⟨block.valid,block.sealed,block.short⟩

end

end LiskEngine.Blockchain
