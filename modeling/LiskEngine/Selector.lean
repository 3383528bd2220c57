import LiskEngine.BinaryHeap
import LiskEngine.BlockCodec

/-! Selection of transactions for a block. The queue of the lowest nonces of all senders
is a binary heap. -/
namespace LiskEngine.Generation
open Blockchain Codec

structure TransactionWithFeePriority where
  transaction : Transaction
  feePriority : Nat
  deriving DecidableEq, Repr

def FeePriorityTransactions.less (a b : TransactionWithFeePriority) : Bool := a.feePriority > b.feePriority

section
variable (text : Normalizer) (sha : Bytes → Bytes)

def size (tx : Transaction) : Nat := ((tx.encode text).map List.length).getD 0

def senderAddress (tx : Transaction) : Bytes := (sha tx.senderPublicKey).take 20

abbrev TransactionsBySender := OrderedMap Bytes (List TransactionWithFeePriority)

/-- No transaction has size 0, for which the source's division would panic. -/
def getSortedTransactionMapByNonce (transactions : List Transaction) : TransactionsBySender :=
  let result := transactions.foldl (fun (result : TransactionsBySender) tx =>
    result.set (senderAddress sha tx)
      ((result.get (senderAddress sha tx)).getD [] ++ [⟨tx,tx.fee / size text tx⟩])) OrderedMap.empty
  result.entries.foldl (fun (sorted : TransactionsBySender) e =>
    sorted.set e.1 (e.2.insertionSort (fun a b => a.transaction.nonce ≤ b.transaction.nonce))) OrderedMap.empty

/-- The loop's variables; `oracle` is the state of whatever verifies and executes. -/
structure Selecting (τ : Type) where
  transactionBySender : TransactionsBySender
  priorityTx : List TransactionWithFeePriority
  totalSize : Nat
  resultTransaction : List Transaction
  oracle : τ

variable {τ : Type} (verify execute : τ → Transaction → Bool × τ) (maxSize : Nat)

def dropSender (s : Selecting τ) (oracle : τ) (rest : List TransactionWithFeePriority) (sender : Bytes) : Selecting τ :=
  {s with transactionBySender := s.transactionBySender.del sender, priorityTx := rest, oracle := oracle}

def includeTransaction (s : Selecting τ) (oracle : τ) (rest : List TransactionWithFeePriority)
    (tx : Transaction) : Option (Selecting τ) :=
  let sender := senderAddress sha tx
  let s := {s with
    resultTransaction := s.resultTransaction ++ [tx], totalSize := s.totalSize + size text tx, priorityTx := rest,
    oracle := oracle}
  match s.transactionBySender.get sender with
  | none | some [] => none
  | some [_] => some {s with transactionBySender := s.transactionBySender.del sender}
  | some (_ :: nextSmallest :: later) =>
    some {s with
      transactionBySender := s.transactionBySender.set sender (nextSmallest :: later)
      priorityTx := Heap.push FeePriorityTransactions.less s.priorityTx nextSmallest}

def selectLoop : Nat → Selecting τ → Option (List Transaction × τ)
  | 0, _ => none
  | fuel + 1, s =>
    if s.transactionBySender.entries.length = 0 then some (s.resultTransaction, s.oracle)
    else
      match Heap.pop FeePriorityTransactions.less s.priorityTx with
      | none => none
      | some (nextTx, rest) =>
        if size text nextTx.transaction + s.totalSize > maxSize then some (s.resultTransaction, s.oracle)
        else
          let (verified, oracle) := verify s.oracle nextTx.transaction
          if !verified then selectLoop fuel (dropSender s oracle rest (senderAddress sha nextTx.transaction))
          else
            let (executed, oracle) := execute oracle nextTx.transaction
            if !executed then selectLoop fuel (dropSender s oracle rest (senderAddress sha nextTx.transaction))
            else
              match includeTransaction text sha s oracle rest nextTx.transaction with
              | none => none
              | some s => selectLoop fuel s

/-- The senders are visited in the order `visit`; every round takes a transaction off its sender. -/
def selectTransactionsByFee (visit : List (Bytes × List TransactionWithFeePriority) → List (Bytes × List TransactionWithFeePriority))
    (oracle : τ) (transactions : List Transaction) : Option (List Transaction × τ) :=
  let transactionBySender := getSortedTransactionMapByNonce text sha transactions
  let priorityTx := (visit transactionBySender.entries).foldl (fun heap e =>
    match e.2 with
    | [] => heap
    | lowestNonce :: _ => Heap.push FeePriorityTransactions.less heap lowestNonce) []
  selectLoop text sha verify execute maxSize (transactions.length + 1) ⟨transactionBySender,priorityTx,0,[],oracle⟩

def limitTransactionsWithSize (totalSize : Nat) : List Transaction → List Transaction
  | [] => []
  | tx :: rest =>
    if size text tx + totalSize > maxSize then []
    else tx :: limitTransactionsWithSize (totalSize + size text tx) rest

end

end LiskEngine.Generation
