import LiskEngine.Selector
import LiskEngine.TxList

/-! The transaction pool: all transactions by ID, a list for each account and a queue by fee priority.
An operation that takes a lock its own caller holds does not return. -/
namespace LiskEngine.Txpool
open Blockchain Codec

def txVerifyResultInvalid : Int := -1
def txVerifyResultPending : Int := 0
def txVerifyResultOk : Int := 1

structure TransactionPoolConfig where
  maxTransactions : Int
  maxTransactionsPerAccount : Int
  minEntranceFeePriority : Nat
  minReplacementFeeDifference : Nat
  deriving DecidableEq, Repr

def TransactionPoolConfig.setDefault (c : TransactionPoolConfig) : TransactionPoolConfig :=
  {c with
    maxTransactions := if c.maxTransactions = 0 then 4096 else c.maxTransactions
    maxTransactionsPerAccount := if c.maxTransactionsPerAccount = 0 then 64 else c.maxTransactionsPerAccount
    minReplacementFeeDifference := if c.minReplacementFeeDifference = 0 then 1 else c.minReplacementFeeDifference}

structure TransactionPool where
  locked : Bool
  allTransactions : OrderedMap Bytes TransactionWithFeePriority
  perAccount : OrderedMap Bytes AddressTransactions
  feePriorityQueue : List TransactionWithFeePriority
  config : TransactionPoolConfig
  deriving DecidableEq

def newTransactionPool (cfg : Option TransactionPoolConfig) : TransactionPool :=
  ⟨false,OrderedMap.empty,OrderedMap.empty,[],(cfg.getD ⟨0,0,0,0⟩).setDefault⟩

def feeLess (a b : TransactionWithFeePriority) : Bool := a.feePriority < b.feePriority

/-- No transaction has size 0, for which the division would panic. -/
def calculateFeePriority (text : Normalizer) (tx : Transaction) : Nat := tx.fee / Generation.size text tx

/-- The answers of VerifyTransaction in one operation; none is an error. -/
abbrev Verifier := Transaction → Option Int

def verifyTransactions (abi : Verifier) : List Transaction → Int × Option Bytes
  | [] => (txVerifyResultOk, none)
  | tx :: rest =>
    match abi tx with
    | none => (txVerifyResultInvalid, some tx.id)
    | some result => if result = txVerifyResultInvalid then (result, some tx.id) else verifyTransactions abi rest

def inOrder {α : Type} (order : List Bytes) (key : α → Bytes) (xs : List α) : List α :=
  xs.insertionSort (fun a b => order.idxOf (key a) ≤ order.idxOf (key b))

def reorgList (abi : Verifier) (list : AddressTransactions) : Except Fault (AddressTransactions × List Bytes) := do
  let promotables ← list.getPromotable
  if promotables.length = 0 then .ok (list, [])
  else do
    let processables ← list.getProcessables
    let combinedTxs := (processables ++ promotables).map (·.transaction)
    let (result, failedID) := verifyTransactions abi combinedTxs
    if result = txVerifyResultOk then .ok ((list.promote promotables).2, [])
    else if result = txVerifyResultPending then .ok (list, [])
    else match combinedTxs.findIdx? (fun tx => some tx.id = failedID) with
      | none => .error .indexOutOfRange
      | some failedIndex =>
        let list := if failedIndex ≥ processables.length + 1 then
          (list.promote (promotables.take (failedIndex - processables.length))).2 else list
        .ok (list, (combinedTxs.drop failedIndex).map (·.id))

inductive Operation where
  | add (tx : Transaction) (abi : Verifier) (published : Bool) (accounts : List Bytes) (order : Bytes → List Bytes)
  | remove (id : Bytes) (order : List Bytes)
  | reorg (abi : Verifier) (accounts turns : List Bytes) (order : Bytes → List Bytes)

namespace TransactionPool

def lock (t : TransactionPool) : Except Fault TransactionPool :=
  if t.locked then .error .mutexHeld else .ok {t with locked := true}

/-- A reader waits for a writer too. -/
def rLock (t : TransactionPool) : Except Fault TransactionPool := if t.locked then .error .mutexHeld else .ok t

def unlock (t : TransactionPool) : TransactionPool := {t with locked := false}

def overfull (t : TransactionPool) : Prop := (t.allTransactions.entries.length : Int) > t.config.maxTransactions

instance (t : TransactionPool) : Decidable t.overfull := inferInstanceAs (Decidable (_ > _))

def storeList (perAccount : OrderedMap Bytes AddressTransactions) (sender : Bytes) (list : AddressTransactions) :
    OrderedMap Bytes AddressTransactions :=
  if list.size = 0 then perAccount.del sender else perAccount.set sender list

section
variable (sha : Bytes → Bytes)

def remove (t : TransactionPool) (id : Bytes) (order : List Bytes) : Except Fault (Bool × TransactionPool) := do
  let t ← t.lock
  match t.allTransactions.get id with
  | none => .ok (false, t.unlock)
  | some existingTx =>
    let sender := Generation.senderAddress sha existingTx.transaction
    match t.perAccount.get sender with
    | none => .error .nilPointer
    | some list =>
      let list := (list.remove existingTx.transaction.nonce).2
      let allTransactions := t.allTransactions.del id
      let visited := (inOrder order Prod.fst allTransactions.entries).map Prod.snd
      let t := {t with
        allTransactions := allTransactions
        perAccount := storeList t.perAccount sender list
        feePriorityQueue := visited.foldl (Heap.push feeLess) []}
      .ok (true, t.unlock)

def evict (t : TransactionPool) (candidates : List TransactionWithFeePriority) (order : Bytes → List Bytes) :
    Except Fault (Bool × TransactionPool) :=
  match Heap.pop feeLess (candidates.foldl (Heap.push feeLess) []) with
  | none => .ok (false, t)
  | some (tx, _) => do
    let (_, t) ← t.remove sha tx.transaction.id (order tx.transaction.id)
    .ok (true, t)

def evictUnprocessable (t : TransactionPool) (accounts : List Bytes) (order : Bytes → List Bytes) :
    Except Fault (Bool × TransactionPool) := do
  let t ← t.rLock
  let unprocessables ← (inOrder accounts Prod.fst t.perAccount.entries).mapM (fun e => e.2.getUnprocessables)
  t.evict sha unprocessables.flatten order

def evictProcessable (t : TransactionPool) (accounts : List Bytes) (order : Bytes → List Bytes) :
    Except Fault (Bool × TransactionPool) := do
  let t ← t.rLock
  let processables ← (inOrder accounts Prod.fst t.perAccount.entries).mapM (fun e => e.2.getProcessables)
  t.evict sha (processables.filterMap (·.getLast?)) order

def accountList (t : TransactionPool) (tx : Transaction) : AddressTransactions :=
  (t.perAccount.get (Generation.senderAddress sha tx)).getD
    (newAddressTransactions (Generation.senderAddress sha tx) t.config.maxTransactionsPerAccount
      t.config.minReplacementFeeDifference)

def addToList (t : TransactionPool) (incomingTx : TransactionWithFeePriority) (published : Bool) : Bool × TransactionPool :=
  let (result, list) := (t.accountList sha incomingTx.transaction).add incomingTx false
  let t := {t with perAccount := t.perAccount.set (Generation.senderAddress sha incomingTx.transaction) list}
  if result.ok then
    (published, {t with
      allTransactions := t.allTransactions.set incomingTx.transaction.id incomingTx
      feePriorityQueue := Heap.push feeLess t.feePriorityQueue incomingTx})
  else (false, t)

variable (text : Normalizer)

def Admits (t : TransactionPool) (tx : Transaction) (abi : Verifier) : Prop :=
  t.allTransactions.get tx.id = none ∧ t.config.minEntranceFeePriority ≤ calculateFeePriority text tx ∧
    ¬(t.overfull ∧ ∃ lowestFeePriorityTx ∈ t.feePriorityQueue.head?,
      calculateFeePriority text tx ≤ lowestFeePriorityTx.feePriority) ∧
    (verifyTransactions abi [tx]).1 ≠ txVerifyResultInvalid

instance (t : TransactionPool) (tx : Transaction) (abi : Verifier) : Decidable (t.Admits text tx abi) :=
  inferInstanceAs (Decidable (_ ∧ _ ∧ _ ∧ _))

def add (t : TransactionPool) (tx : Transaction) (abi : Verifier) (published : Bool) (accounts : List Bytes)
    (order : Bytes → List Bytes) : Except Fault (Bool × TransactionPool) := do
  let t ← t.lock
  if t.Admits text tx abi then
    let t ← if t.overfull then do
        let (evicted, t) ← t.evictUnprocessable sha accounts order
        if evicted then .ok t
        else do
          let (_, t) ← t.evictProcessable sha accounts order
          .ok t
      else .ok t
    let (ok, t) := t.addToList sha ⟨tx,calculateFeePriority text tx⟩ published
    .ok (ok, t.unlock)
  else .ok (false, t.unlock)

def reorgAccounts (t : TransactionPool) (abi : Verifier) :
    List (Bytes × AddressTransactions) → Except Fault (TransactionPool × List Bytes)
  | [] => .ok (t, [])
  | (address, list) :: rest => do
    let (list, failed) ← reorgList abi list
    let (t, more) ← reorgAccounts {t with perAccount := t.perAccount.set address list} abi rest
    .ok (t, failed ++ more)

def removeAll (order : Bytes → List Bytes) : List Bytes → TransactionPool → Except Fault TransactionPool
  | [], t => .ok t
  | id :: rest, t => do
    let (_, t) ← t.remove sha id (order id)
    removeAll order rest t

def reorg (t : TransactionPool) (abi : Verifier) (accounts turns : List Bytes) (order : Bytes → List Bytes) :
    Except Fault TransactionPool := do
  let t ← t.rLock
  let (t, failed) ← t.reorgAccounts abi (inOrder accounts Prod.fst t.perAccount.entries)
  removeAll sha order (inOrder turns id failed) t

def step (t : TransactionPool) : Operation → Option TransactionPool
  | .add tx abi published accounts order => ((t.add sha text tx abi published accounts order).map Prod.snd).toOption
  | .remove id order => ((t.remove sha id order).map Prod.snd).toOption
  | .reorg abi accounts turns order => (t.reorg sha abi accounts turns order).toOption

end
end TransactionPool
end LiskEngine.Txpool
