import LiskEngine.BinaryHeap
import LiskEngine.Blockchain
import Mathlib.Data.List.Dedup

/-! The transactions that the pool holds for one account: a map by nonce, a heap of its nonces, and
the lowest nonces that are processable. -/
namespace LiskEngine.Txpool
open Blockchain List Option OrderedMap

structure TransactionWithFeePriority where
  transaction : Transaction
  feePriority : Nat
  deriving DecidableEq, Repr

inductive Fault where
  | mutexHeld
  | nilPointer
  | indexOutOfRange
  deriving DecidableEq, Repr

structure AddressTransactions where
  address : Bytes
  maxSize : Int
  minReplacementFeeDifference : Nat
  transactions : OrderedMap Nat TransactionWithFeePriority
  processables : List Nat
  nonces : List Nat
  deriving DecidableEq

def newAddressTransactions (address : Bytes) (maxSize : Int) (minReplacementFeeDiff : Nat) : AddressTransactions :=
  ⟨address,maxSize,minReplacementFeeDiff,OrderedMap.empty,[],[]⟩

def nonceLess (a b : Nat) : Bool := a < b

structure AddResult where
  ok : Bool
  idRemoved : Option Bytes
  errMsg : String
  deriving DecidableEq, Repr

namespace AddressTransactions

def size (a : AddressTransactions) : Nat := a.nonces.length

/-- A nonce without a transaction gives a nil pointer, which every caller follows. -/
def held (a : AddressTransactions) (nonce : Nat) : Except Fault TransactionWithFeePriority :=
  match a.transactions.get nonce with
  | some tx => .ok tx
  | none => .error .nilPointer

def getProcessables (a : AddressTransactions) : Except Fault (List TransactionWithFeePriority) := a.processables.mapM a.held

def unprocessableNonces (a : AddressTransactions) : Except Fault (List Nat) :=
  if a.nonces.length = 0 ∨ a.nonces.length = a.processables.length then .ok []
  else match Heap.popMany nonceLess a.processables.length a.nonces with
    | some (_, copied) => .ok copied
    | none => .error .indexOutOfRange

def getUnprocessables (a : AddressTransactions) : Except Fault (List TransactionWithFeePriority) := do
  let copied ← a.unprocessableNonces
  match Heap.popMany nonceLess copied.length copied with
  | some (nonces, _) => nonces.mapM a.held
  | none => .error .indexOutOfRange

def promotableLoop (a : AddressTransactions) : Nat → Nat → List Nat → Except Fault (List TransactionWithFeePriority)
  | 0, _, _ => .ok []
  | remaining + 1, lastPromoted, copied =>
    match Heap.pop nonceLess copied with
    | none => .error .indexOutOfRange
    | some (next, copied) =>
      if next ≠ u64 (lastPromoted + 1) then .ok []
      else do
        let promotable ← a.held next
        let result ← promotableLoop a remaining next copied
        .ok (promotable :: result)

def getPromotable (a : AddressTransactions) : Except Fault (List TransactionWithFeePriority) := do
  let copied ← a.unprocessableNonces
  match Heap.pop nonceLess copied with
  | none => .ok []
  | some (firstUnprocessable, copied) =>
    if ∃ highestProcessable ∈ a.processables.getLast?, firstUnprocessable ≠ u64 (highestProcessable + 1) then .ok []
    else do
      let firstPromotable ← a.held firstUnprocessable
      let result ← a.promotableLoop copied.length firstUnprocessable copied
      .ok (firstPromotable :: result)

def demoteAfter (a : AddressTransactions) (target : Nat) : AddressTransactions :=
  {a with processables := (a.processables.filter (· < target)).insertionSort (· ≤ ·)}

def remove (a : AddressTransactions) (target : Nat) : Option Bytes × AddressTransactions :=
  match a.transactions.get target with
  | none => (none, a)
  | some existingTx =>
    (some existingTx.transaction.id,
      {a.demoteAfter target with
        nonces := Heap.init nonceLess (a.nonces.filter (· ≠ target)), transactions := a.transactions.del target})

def maxNonce (a : AddressTransactions) : Nat := a.nonces.foldl (fun max nonce => if nonce > max then nonce else max) 0

def insert (a : AddressTransactions) (incomingTx : TransactionWithFeePriority) (processable : Bool) : AddressTransactions :=
  let nonce := incomingTx.transaction.nonce
  {a with
    transactions := a.transactions.set nonce incomingTx
    nonces := Heap.push nonceLess a.nonces nonce
    processables := if processable ∧ a.processables.length = 0 then a.processables ++ [nonce] else a.processables}

def add (a : AddressTransactions) (incomingTx : TransactionWithFeePriority) (processable : Bool) :
    AddResult × AddressTransactions :=
  let nonce := incomingTx.transaction.nonce
  match a.transactions.get nonce with
  | some existingTx =>
    if incomingTx.transaction.fee < u64 (existingTx.transaction.fee + a.minReplacementFeeDifference) then
      (⟨false,none,"Incoming transaction fee is not sufficient to replace existing transaction"⟩, a)
    else
      (⟨true,some existingTx.transaction.id,""⟩,
        {a.demoteAfter nonce with transactions := a.transactions.set nonce incomingTx})
  | none =>
    if (a.nonces.length : Int) + 1 > a.maxSize then
      if nonce > a.maxNonce then
        (⟨false,none,"Incoming transaction exceeds maximum transaction limit per account"⟩, a)
      else
        let (removedID, a) := a.remove a.maxNonce
        (⟨true,removedID,""⟩, a.insert incomingTx processable)
    else (⟨true,none,""⟩, a.insert incomingTx processable)

/-- Nothing changes unless the list still holds every transaction. -/
def promote (a : AddressTransactions) (txs : List TransactionWithFeePriority) : Bool × AddressTransactions :=
  if ∀ tx ∈ txs, (a.transactions.get tx.transaction.nonce).map (·.transaction.id) = some tx.transaction.id then
    (true, {a with
      processables := (a.processables ++ txs.map (·.transaction.nonce)).dedup.insertionSort (· ≤ ·)})
  else (false, a)

structure WellFormed (a : AddressTransactions) : Prop where
  distinct : a.nonces.Nodup
  indexed : ∀ n, n ∈ a.nonces ↔ ∃ tx, a.transactions.get n = some tx
  keyed : ∀ n tx, a.transactions.get n = some tx → tx.transaction.nonce = n
  ascending : a.processables.Pairwise (· < ·)
  processable : ∀ n ∈ a.processables, n ∈ a.nonces

theorem newWellFormed (addr : Bytes) (maxSize : Int) (minDiff : Nat) : (newAddressTransactions addr maxSize minDiff).WellFormed := by
  constructor <;> simp [newAddressTransactions,getEmpty]

section
variable {a : AddressTransactions} {n target : Nat} {tx : TransactionWithFeePriority}

theorem sizeOccupied (wf : a.WellFormed) : a.size ≠ 0 ↔ ∃ n tx, a.transactions.get n = some tx := by
  rw [size,← Nat.pos_iff_ne_zero,length_pos_iff_exists_mem]
  exact exists_congr wf.indexed

theorem sortAscends {xs : List Nat} (nodup : xs.Nodup) : (xs.insertionSort (· ≤ ·)).Pairwise (· < ·) := by
  have sorted := pairwise_insertionSort (· ≤ ·) xs
  have apart := (perm_insertionSort (· ≤ ·) xs).nodup_iff.mpr nodup
  exact (sorted.and apart).imp (fun both => lt_of_le_of_ne both.1 both.2)

theorem memDemoted : n ∈ (a.demoteAfter target).processables ↔ n ∈ a.processables ∧ n < target := by
  rw [demoteAfter,(perm_insertionSort (· ≤ ·) _).mem_iff]
  simp

theorem demotedAscends (ascending : a.processables.Pairwise (· < ·)) : (a.demoteAfter target).processables.Pairwise (· < ·) :=
  sortAscends ((ascending.imp (fun inside => ne_of_lt inside)).filter _)

theorem WellFormed.unused (wf : a.WellFormed) (missing : a.transactions.get n = none) : n ∉ a.nonces := by
  simp [wf.indexed,missing]

theorem removeGet (a : AddressTransactions) (target n : Nat) :
    (a.remove target).2.transactions.get n = if n = target then none else a.transactions.get n := by
  unfold remove
  split
  · rename_i missing
    split
    · rename_i same
      rw [same]
      exact missing
    · rfl
  · exact getDel a.transactions target n

theorem removeNonces (wf : a.WellFormed) : n ∈ (a.remove target).2.nonces ↔ n ∈ a.nonces ∧ n ≠ target := by
  unfold remove
  split
  · rename_i missing
    refine ⟨fun mem => ⟨mem,?_⟩,And.left⟩
    rintro rfl
    exact wf.unused missing mem
  · rw [(Heap.initPerm _).mem_iff]
    simp

theorem removeWellFormed (wf : a.WellFormed) (target : Nat) : (a.remove target).2.WellFormed := by
  have indexed : ∀ n, n ∈ (a.remove target).2.nonces ↔ ∃ tx, (a.remove target).2.transactions.get n = some tx := by
    intro n
    rw [removeNonces wf,removeGet,wf.indexed n]
    split <;> simp_all
  have keyed : ∀ n tx, (a.remove target).2.transactions.get n = some tx → tx.transaction.nonce = n := by
    intro n tx hit
    rw [removeGet] at hit
    split at hit
    · cases hit
    · exact wf.keyed n tx hit
  refine ⟨?_,indexed,keyed,?_,?_⟩
  · unfold remove
    split
    · exact wf.distinct
    · exact (Heap.initPerm _).nodup_iff.mpr (wf.distinct.filter _)
  · unfold remove
    split
    · exact wf.ascending
    · exact demotedAscends wf.ascending
  · intro n mem
    rw [removeNonces wf]
    unfold remove at mem
    split at mem
    · rename_i missing
      refine ⟨wf.processable n mem,?_⟩
      rintro rfl
      exact wf.unused missing (wf.processable n mem)
    · obtain ⟨old,below⟩ := memDemoted.mp mem
      exact ⟨wf.processable n old,ne_of_lt below⟩

theorem insertGet (a : AddressTransactions) (tx : TransactionWithFeePriority) (proc : Bool) (n : Nat) :
    (a.insert tx proc).transactions.get n = if n = tx.transaction.nonce then some tx else a.transactions.get n :=
  getSet a.transactions tx.transaction.nonce n tx

theorem insertWellFormed (wf : a.WellFormed) (fresh : a.transactions.get tx.transaction.nonce = none) (proc : Bool) :
    (a.insert tx proc).WellFormed := by
  have nonces : ∀ n, n ∈ (a.insert tx proc).nonces ↔ n = tx.transaction.nonce ∨ n ∈ a.nonces := fun n => Heap.memPush
  refine ⟨?_,fun n => ?_,fun n old hit => ?_,?_,fun n mem => ?_⟩
  · exact (Heap.pushPerm _ _).nodup_iff.mpr (nodup_cons.mpr ⟨wf.unused fresh,wf.distinct⟩)
  · rw [nonces,insertGet,wf.indexed n]
    split <;> simp_all
  · rw [insertGet] at hit
    split at hit
    · cases hit
      exact Eq.symm ‹_›
    · exact wf.keyed n old hit
  · simp only [insert]
    split
    · rename_i first
      rw [eq_nil_of_length_eq_zero first.2]
      exact pairwise_singleton _ _
    · exact wf.ascending
  · rw [nonces]
    simp only [insert] at mem
    split at mem
    · rcases mem_append.mp mem with old | new
      · exact .inr (wf.processable n old)
      · exact .inl (mem_singleton.mp new)
    · exact .inr (wf.processable n mem)

theorem maxNonceFold (xs : List Nat) (start : Nat) :
    let most := xs.foldl (fun max nonce => if nonce > max then nonce else max) start
    (most = start ∨ most ∈ xs) ∧ start ≤ most ∧ ∀ n ∈ xs, n ≤ most := by
  induction xs generalizing start with
  | nil => simp
  | cons x rest ih =>
    simp only [foldl_cons]
    generalize pick : (if x > start then x else start) = next
    have bounds : start ≤ next ∧ x ≤ next ∧ (next = start ∨ next = x) := by split at pick <;> omega
    obtain ⟨source,above,most⟩ := ih next
    refine ⟨?_,bounds.1.trans above,fun n mem => ?_⟩
    · rcases source with same | mem
      · rw [same]
        rcases bounds.2.2 with first | last
        · exact .inl first
        · exact .inr (by rw [last]; exact .head _)
      · exact .inr (.tail _ mem)
    · rcases mem_cons.mp mem with rfl | mem
      · exact bounds.2.1.trans above
      · exact most n mem

theorem maxNonceMem (occupied : a.nonces ≠ []) : a.maxNonce ∈ a.nonces := by
  obtain ⟨source,_,most⟩ := maxNonceFold a.nonces 0
  rcases source with zero | mem
  · obtain ⟨n,mem⟩ := exists_mem_of_ne_nil a.nonces occupied
    have bound := most n mem
    have same : a.maxNonce = n := zero.trans (by omega)
    exact same ▸ mem
  · exact mem

def Displaces (a : AddressTransactions) (incomingTx : TransactionWithFeePriority) : Prop :=
  (∃ existingTx, a.transactions.get incomingTx.transaction.nonce = some existingTx ∧
    u64 (existingTx.transaction.fee + a.minReplacementFeeDifference) ≤ incomingTx.transaction.fee) ∨
  (a.transactions.get incomingTx.transaction.nonce = none ∧ (a.nonces.length : Int) + 1 > a.maxSize ∧
    incomingTx.transaction.nonce ≤ a.maxNonce ∧ a.nonces ≠ [])

def Exceeds (a : AddressTransactions) (incomingTx : TransactionWithFeePriority) : Prop :=
  a.transactions.get incomingTx.transaction.nonce = none ∧ (a.nonces.length : Int) + 1 > a.maxSize ∧
    incomingTx.transaction.nonce > a.maxNonce

theorem addWellFormed (wf : a.WellFormed) (tx : TransactionWithFeePriority) (proc : Bool) : (a.add tx proc).2.WellFormed := by
  unfold add
  simp only
  split
  · rename_i existing hit
    split
    · exact wf
    refine ⟨wf.distinct,fun n => ?_,fun n old held => ?_,demotedAscends wf.ascending,fun n old => ?_⟩
    · show n ∈ a.nonces ↔ ∃ tx', (a.transactions.set tx.transaction.nonce tx).get n = some tx'
      rw [getSet,wf.indexed n]
      split <;> simp_all
    · have hit' := held
      rw [getSet] at hit'
      split at hit'
      · cases hit'
        exact Eq.symm ‹_›
      · exact wf.keyed n old hit'
    · exact wf.processable n (memDemoted.mp old).1
  · rename_i fresh
    split
    · split
      · exact wf
      refine insertWellFormed (removeWellFormed wf _) ?_ proc
      rw [removeGet,fresh]
      simp
    · exact insertWellFormed wf fresh proc

theorem addRejected (rejected : (a.add tx processable).1.ok = false) : (a.add tx processable).2 = a := by
  unfold add at rejected ⊢
  simp only at rejected ⊢
  split at rejected
  · split at rejected
    · rename_i low
      rw [if_pos low]
    · cases rejected
  split at rejected
  · split at rejected
    · rename_i full above
      rw [if_pos full,if_pos above]
    · cases rejected
  · cases rejected

theorem addGet (wf : a.WellFormed) (plain : ¬a.Displaces tx) (ok : (a.add tx processable).1.ok = true) :
    a.transactions.get tx.transaction.nonce = none ∧
      ∀ n, (a.add tx processable).2.transactions.get n = if n = tx.transaction.nonce then some tx else a.transactions.get n := by
  unfold add at ok ⊢
  simp only at ok ⊢
  split at ok
  · rename_i existing hit
    split at ok
    · cases ok
    · exact absurd (.inl ⟨existing,hit,by omega⟩) plain
  rename_i fresh
  refine ⟨fresh,fun n => ?_⟩
  split at ok
  · rename_i full
    split at ok
    · cases ok
    rename_i fit
    have empty : a.nonces = [] := by
      by_contra occupied
      exact plain (.inr ⟨fresh,full,by omega,occupied⟩)
    have unused : a.transactions.get a.maxNonce = none := by
      cases hit : a.transactions.get a.maxNonce with
      | none => rfl
      | some old =>
        have mem := (wf.indexed a.maxNonce).mpr ⟨old,hit⟩
        rw [empty] at mem
        cases mem
    rw [if_pos full,if_neg fit,insertGet,removeGet]
    split
    · rfl
    split
    · rename_i same
      rw [same,unused]
    · rfl
  · rename_i room
    rw [if_neg room]
    exact insertGet a tx processable n

theorem addDisplaces {proc} (wf : a.WellFormed) (displaces : a.Displaces tx)
    (new : a.transactions.get tx.transaction.nonce ≠ some tx) :
    (a.add tx proc).1.ok = true ∧ ∃ n old, a.transactions.get n = some old ∧ (a.add tx proc).2.transactions.get n ≠ some old := by
  rcases displaces with ⟨existing,hit,enough⟩ | ⟨fresh,full,fit,occupied⟩
  · unfold add
    simp only [hit]
    rw [if_neg (by omega)]
    refine ⟨rfl,tx.transaction.nonce,existing,hit,?_⟩
    rw [getSet,if_pos rfl]
    rintro same
    exact new (hit.trans same.symm)
  · unfold add
    simp only [fresh]
    rw [if_pos full,if_neg (by omega)]
    obtain ⟨old,hit⟩ := (wf.indexed _).mp (maxNonceMem occupied)
    refine ⟨rfl,a.maxNonce,old,hit,?_⟩
    have apart : a.maxNonce ≠ tx.transaction.nonce := by
      intro same
      rw [same,fresh] at hit
      cases hit
    rw [insertGet,if_neg apart,removeGet,if_pos rfl]
    exact some_ne_none old |>.symm

theorem addExceeds {proc} : a.Exceeds tx ↔ a.transactions.get tx.transaction.nonce = none ∧ (a.add tx proc).1.ok = false := by
  unfold Exceeds add
  simp only
  split
  · rename_i existing hit
    simp [hit]
  rename_i fresh
  split
  · rename_i full
    split
    · rename_i above
      simp [full,above]
    · rename_i fit
      simp [fit]
  · rename_i room
    simp [room]

theorem promoteWellFormed (wf : a.WellFormed) (txs : List TransactionWithFeePriority) : (a.promote txs).2.WellFormed := by
  unfold promote
  split
  · rename_i all
    refine ⟨wf.distinct,wf.indexed,wf.keyed,sortAscends (nodup_dedup _),fun n mem => ?_⟩
    have hit := (perm_insertionSort (· ≤ ·) _).mem_iff.mp mem
    rcases mem_append.mp (mem_dedup.mp hit) with old | new
    · exact wf.processable n old
    obtain ⟨tx,promoted,rfl⟩ := mem_map.mp new
    obtain ⟨existing,held,_⟩ := map_eq_some_iff.mp (all tx promoted)
    exact (wf.indexed _).mpr ⟨existing,held⟩
  · exact wf

theorem promoteTransactions (a : AddressTransactions) (txs : List TransactionWithFeePriority) :
    (a.promote txs).2.transactions = a.transactions := by
  unfold promote
  split <;> rfl

section
variable (wf : a.WellFormed)
include wf

theorem heldOf (mem : n ∈ a.nonces) : ∃ tx, a.held n = .ok tx ∧ a.transactions.get tx.transaction.nonce = some tx := by
  obtain ⟨tx,hit⟩ := (wf.indexed n).mp mem
  exact ⟨tx,by rw [held,hit],by rw [wf.keyed n tx hit,hit]⟩

theorem heldAll {ns : List Nat} (mems : ∀ n ∈ ns, n ∈ a.nonces) :
    ∃ txs, ns.mapM a.held = .ok txs ∧ ∀ tx ∈ txs, a.transactions.get tx.transaction.nonce = some tx := by
  induction ns with
  | nil => exact ⟨[],rfl,by simp⟩
  | cons n rest ih =>
    obtain ⟨tx,head,own⟩ := heldOf wf (mems n (by simp))
    obtain ⟨txs,tail,owns⟩ := ih (fun m mem => mems m (by simp [mem]))
    exact ⟨tx::txs,by rw [mapM_cons,head,tail]; rfl,forall_mem_cons.mpr ⟨own,owns⟩⟩

theorem getProcessablesHeld : ∃ txs, a.getProcessables = .ok txs ∧ ∀ tx ∈ txs, a.transactions.get tx.transaction.nonce = some tx :=
  heldAll wf wf.processable

theorem unprocessableNoncesOf : ∃ copied, a.unprocessableNonces = .ok copied ∧ ∀ n ∈ copied, n ∈ a.nonces := by
  unfold unprocessableNonces
  split
  · exact ⟨[],rfl,by simp⟩
  have nodup := wf.ascending.imp (fun inside => ne_of_lt inside)
  have fewer := (subperm_of_subset nodup wf.processable).length_le
  obtain ⟨popped,copied,ok⟩ := @Heap.popManySome Nat nonceLess _ _ fewer
  refine ⟨copied,by rw [ok],fun n mem => ?_⟩
  exact (Heap.popManyPerm ok).1.mem_iff.mp (mem_append_right _ mem)

theorem promotableLoopHeld (last : Nat) (mems : ∀ n ∈ copied, n ∈ a.nonces) :
    ∃ txs, a.promotableLoop copied.length last copied = .ok txs ∧ ∀ tx ∈ txs, a.transactions.get tx.transaction.nonce = some tx := by
  generalize size : copied.length = remaining
  induction remaining generalizing last copied with
  | zero => exact ⟨[],rfl,by simp⟩
  | succ remaining ih =>
    obtain ⟨next,rest,popped⟩ := @Heap.popSome Nat nonceLess copied (ne_nil_of_length_eq_add_one size)
    have same := Heap.popPerm popped
    simp only [promotableLoop,popped]
    split
    · exact ⟨[],rfl,by simp⟩
    obtain ⟨tx,head,own⟩ := heldOf wf (mems next (same.mem_iff.mp (.head _)))
    have later : ∀ n ∈ rest, n ∈ a.nonces := fun n mem => mems n (same.mem_iff.mp (.tail _ mem))
    have len := same.length_eq
    obtain ⟨txs,tail,owns⟩ := ih next later (by simp at len; omega)
    exact ⟨tx::txs,by rw [head,tail]; rfl,forall_mem_cons.mpr ⟨own,owns⟩⟩

theorem getPromotableHeld : ∃ txs, a.getPromotable = .ok txs ∧ ∀ tx ∈ txs, a.transactions.get tx.transaction.nonce = some tx := by
  obtain ⟨copied,ok,mems⟩ := unprocessableNoncesOf wf
  unfold getPromotable
  rw [ok]
  simp only [bind,Except.bind]
  split
  · exact ⟨[],rfl,by simp⟩
  rename_i first rest popped
  have same := Heap.popPerm popped
  split
  · exact ⟨[],rfl,by simp⟩
  obtain ⟨tx,head,own⟩ := heldOf wf (mems first (same.mem_iff.mp (.head _)))
  obtain ⟨txs,tail,owns⟩ := promotableLoopHeld wf first
    (fun n mem => mems n (same.mem_iff.mp (.tail _ mem)))
  exact ⟨tx::txs,by rw [head,tail],forall_mem_cons.mpr ⟨own,owns⟩⟩

end

end

end AddressTransactions
end LiskEngine.Txpool
