import LiskEngine.TxList

/-! Runs of the operations on the transactions of one account. -/
namespace LiskEngine.Txpool
open List Option OrderedMap

inductive ListOperation where
  | add (incomingTx : TransactionWithFeePriority) (processable : Bool)
  | remove (target : Nat)
  | promote

namespace AddressTransactions

def apply (a : AddressTransactions) : ListOperation → AddressTransactions
  | .add incomingTx processable => (a.add incomingTx processable).2
  | .remove target => (a.remove target).2
  | .promote => (a.getPromotable.toOption.map (fun promotables => (a.promote promotables).2)).getD a

structure Limited (m : Int) (diff : Nat) (a : AddressTransactions) : Prop extends a.WellFormed where
  maxSize : a.maxSize = m
  difference : a.minReplacementFeeDifference = diff
  fits : (a.nonces.length : Int) ≤ m

section
variable {a : AddressTransactions} {m : Int} {diff : Nat}

theorem removeLimited (limited : Limited m diff a) (target : Nat) : Limited m diff (a.remove target).2 := by
  have wf := removeWellFormed limited.toWellFormed target
  unfold remove at wf ⊢
  split at wf
  · exact limited
  · refine ⟨wf,limited.maxSize,limited.difference,?_⟩
    have fewer := length_filter_le (fun n => decide (n ≠ target)) a.nonces
    have fits := limited.fits
    simp only [(Heap.initPerm _).length_eq]
    omega

theorem removeShorter (wf : a.WellFormed) (mem : target ∈ a.nonces) : (a.remove target).2.nonces.length+1 = a.nonces.length := by
  obtain ⟨tx,hit⟩ := (wf.indexed target).mp mem
  simp only [remove,hit]
  rw [(Heap.initPerm _).length_eq,← length_erase_add_one mem,wf.distinct.erase_eq_filter]
  simp only [ne_eq,decide_not]
  rfl

theorem insertLimited (limited : Limited m diff a) (fresh : a.transactions.get tx.transaction.nonce = none)
    (room : (a.nonces.length : Int)+1 ≤ m) (processable : Bool) : Limited m diff (a.insert tx processable) := by
  refine ⟨insertWellFormed limited.toWellFormed fresh processable,limited.maxSize,limited.difference,?_⟩
  have len := (Heap.pushPerm a.nonces tx.transaction.nonce : (Heap.push nonceLess _ _).Perm _).length_eq
  simp only [insert,len,length_cons]
  omega

theorem addLimited (limited : Limited m diff a) (pos : 1 ≤ m) (tx : TransactionWithFeePriority) (processable : Bool) :
    Limited m diff (a.add tx processable).2 := by
  have wf := addWellFormed limited.toWellFormed tx processable
  have max := limited.maxSize
  have fits := limited.fits
  unfold add at wf ⊢
  simp only at wf ⊢
  split at wf
  · rename_i old hit
    split at wf
    · rwa [if_pos ‹_›]
    · rw [if_neg ‹_›]
      exact ⟨wf,limited.maxSize,limited.difference,limited.fits⟩
  rename_i fresh
  split
  · split
    · exact limited
    have smaller := removeShorter limited.toWellFormed (maxNonceMem (ne_nil_of_length_pos (show 0 < a.nonces.length by omega)))
    exact insertLimited (removeLimited limited _) (by rw [removeGet,fresh]; simp) (by omega) processable
  · exact insertLimited limited fresh (by omega) processable

theorem applyLimited (limited : Limited m diff a) (pos : 1 ≤ m) (op : ListOperation) : Limited m diff (a.apply op) := by
  cases op with
  | add tx processable => exact addLimited limited pos tx processable
  | remove target => exact removeLimited limited target
  | promote =>
    obtain ⟨txs,ok,_⟩ := getPromotableHeld limited.toWellFormed
    have wf := promoteWellFormed limited.toWellFormed txs
    simp only [apply,ok,Except.toOption,Option.map_some,getD_some]
    unfold promote at wf ⊢
    split at wf
    · rw [if_pos ‹_›]
      exact ⟨wf,limited.maxSize,limited.difference,limited.fits⟩
    · rwa [if_neg ‹_›]

theorem runLimited (limited : Limited m diff a) (pos : 1 ≤ m) (ops : List ListOperation) : Limited m diff (ops.foldl apply a) := by
  induction ops generalizing a with
  | nil => exact limited
  | cons op rest ih => exact ih (applyLimited limited pos op)

end

theorem listLimitsIff (address : Bytes) (m : Int) (pos : 1 ≤ m) (diff : Nat) (ops : List ListOperation) :
    let a := ops.foldl apply (newAddressTransactions address m diff)
    (a.transactions.entries.length : Int) ≤ m ∧ a.nonces.Perm (a.transactions.entries.map Prod.fst) ∧
      ∀ tx processable old, tx.transaction.fee < 2 ^ 64 → a.transactions.get tx.transaction.nonce = some old →
        (a.add tx processable).1.ok = true →
        (old.transaction.fee + diff ≤ tx.transaction.fee ↔ old.transaction.fee + diff < 2 ^ 64) := by
  intro a
  have limited : Limited m diff a := runLimited
    ⟨newWellFormed address m diff,rfl,rfl,by simpa [newAddressTransactions] using by omega⟩ pos ops
  have keys : a.nonces.Perm (a.transactions.entries.map Prod.fst) := by
    refine (perm_ext_iff_of_nodup limited.distinct
      ((pairwise_map.mpr a.transactions.sorted).imp (fun inside => ne_of_lt inside))).mpr (fun n => ?_)
    rw [limited.indexed]
    simp only [List.mem_map,Prod.exists,exists_and_right,exists_eq_right,memIffGet]
  refine ⟨?_,keys,fun tx processable old small hit ok => ?_⟩
  · rw [← length_map Prod.fst,← keys.length_eq]
    exact limited.fits
  · simp only [add,hit,limited.difference] at ok
    split at ok
    · cases ok
    · rename_i enough
      unfold u64 at enough
      omega

def samplePriced (nonce fee : Nat) : TransactionWithFeePriority := ⟨⟨[1],"token","transfer",nonce,fee,[1],[],[]⟩,0⟩

theorem listLimitsSample : let a := [.add (samplePriced 7 100) false].foldl apply (newAddressTransactions [1] 2 10)
    (a.transactions.entries.length : Int) ≤ 2 ∧ 100 + 10 ≤ 110 := by
  have limits := listLimitsIff [1] 2 (by decide) 10 [.add (samplePriced 7 100) false]
  exact ⟨limits.1,(limits.2.2 (samplePriced 7 110) false _ (by decide) rfl rfl).mpr (by decide)⟩

theorem cheaperReplaces : ([.add (samplePriced 7 18446744073709551611) false,.add (samplePriced 7 6) false].foldl apply
    (newAddressTransactions [1] 2 10)).transactions.entries = [(7, samplePriced 7 6)] := by
  decide +kernel

end AddressTransactions
end LiskEngine.Txpool
