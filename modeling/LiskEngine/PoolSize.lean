import LiskEngine.PoolIndexes

/-! The size of the transaction pool and its mutex over any sequence of operations. -/
namespace LiskEngine.Txpool

def AddressTransactions.Accepts (a : AddressTransactions) (tx : Blockchain.Transaction) : Prop :=
  match a.transactions.get tx.nonce with
  | some existingTx => u64 (existingTx.transaction.fee + a.minReplacementFeeDifference) ≤ tx.fee
  | none => (a.nonces.length : Int) < a.maxSize ∨ tx.nonce ≤ a.maxNonce

theorem AddressTransactions.addOk (a : AddressTransactions) (tx : TransactionWithFeePriority) (processable : Bool) :
    (a.add tx processable).1.ok = true ↔ a.Accepts tx.transaction := by
  simp only [add,Accepts]
  cases a.transactions.get tx.transaction.nonce <;> grind

namespace TransactionPool
open Blockchain Codec StepRun List OrderedMap

abbrev size (t : TransactionPool) : Nat := t.allTransactions.entries.length

section
variable (sha : Bytes → Bytes) (text : Normalizer)

def attempt (t : TransactionPool) : Operation → Except Fault TransactionPool
  | .add tx abi published accounts order => (t.add sha text tx abi published accounts order).map Prod.snd
  | .remove id order => (t.remove sha id order).map Prod.snd
  | .reorg abi accounts turns order => t.reorg sha abi accounts turns order

/-- An Add that is accepted into a pool with as many transactions as it may hold. -/
def Fills (t : TransactionPool) : Operation → Prop
  | .add tx abi _ _ _ => t.size = t.config.maxTransactions ∧ t.Admits text tx abi ∧ (t.accountList sha tx).Accepts tx
  | _ => False

end

def Lists (perAccount : OrderedMap Bytes AddressTransactions) : Prop :=
  ∀ address list, perAccount.get address = some list → list.WellFormed

structure Usable (t : TransactionPool) : Prop where
  unlocked : t.locked = false
  lists : Lists t.perAccount

structure Shrinks (t t' : TransactionPool) : Prop where
  usable : Usable t'
  config : t'.config = t.config
  fewer : t'.size ≤ t.size

def Keeps (t : TransactionPool) (r : Except Fault TransactionPool) : Prop := r = .error .nilPointer ∨ ∃ t', r = .ok t' ∧ Shrinks t t'

section
variable {sha : Bytes → Bytes} {text : Normalizer} {t t' : TransactionPool} {op : Operation}

theorem listsSet (lists : Lists m) (wf : list.WellFormed) : Lists (m.set sender list) := by
  intro address l held
  rcases setListCases held with ⟨_,rfl⟩ | ⟨_,held⟩
  · exact wf
  · exact lists _ _ held

theorem Keeps.bind {f} (first : Keeps t r) (next : ∀ t', Usable t' → Keeps t' (f t')) : Keeps t (r >>= f) := by
  rcases first with rfl | ⟨t',rfl,usable,config,fewer⟩
  · exact .inl rfl
  · exact (next t' usable).imp_right (fun ⟨u,ok,usable',config',fewer'⟩ =>
      ⟨u,ok,usable',config'.trans config,fewer'.trans fewer⟩)

theorem removeKeeps (sound : Usable t) (id : Bytes) (order : List Bytes) : Keeps t ((t.remove sha id order).map Prod.snd) := by
  unfold remove lock
  rw [sound.unlocked]
  simp only [Bool.false_eq_true,if_false,bind,Except.bind]
  split
  · exact .inr ⟨_,rfl,⟨rfl,sound.lists⟩,rfl,le_rfl⟩
  split
  · exact .inl rfl
  rename_i list account
  refine .inr ⟨_,rfl,⟨rfl,fun address l held => ?_⟩,rfl,length_filter_le _ _⟩
  rcases storeListCases held with ⟨_,rfl,_⟩ | ⟨_,held⟩
  · exact AddressTransactions.removeWellFormed (sound.lists _ _ account) _
  · exact sound.lists _ _ held

theorem removeAllKeeps (sound : Usable t) (order : Bytes → List Bytes) (ids : List Bytes) : Keeps t (removeAll sha order ids t) := by
  induction ids generalizing t with
  | nil => exact .inr ⟨t,rfl,sound,rfl,le_rfl⟩
  | cons id rest ih =>
    have all := (@removeKeeps sha t sound id (order id)).bind (fun t' => ih (t := t'))
    unfold removeAll
    cases done : t.remove sha id (order id) <;> rw [done] at all <;> exact all

theorem reorgAccountsKeeps (abi : Verifier) {es} (lists : Lists t.perAccount) (all : ∀ e ∈ es, e.2.WellFormed) :
    ∃ perAccount failed, t.reorgAccounts abi es = .ok ({t with perAccount := perAccount},failed) ∧ Lists perAccount := by
  induction es generalizing t with
  | nil => exact ⟨_,[],rfl,lists⟩
  | cons e rest ih =>
    obtain ⟨list,failed,done,wf,_⟩ := reorgListKept abi (all e (.head _))
    obtain ⟨accounts,more,done',lists'⟩ := @ih {t with perAccount := t.perAccount.set e.1 list} (listsSet lists wf)
      (fun e mem => all e (.tail _ mem))
    exact ⟨accounts,failed ++ more,by simp only [reorgAccounts,done,bind,Except.bind,done'],lists'⟩

theorem reorgKeeps (sound : Usable t) (abi : Verifier) (accounts turns : List Bytes) (order : Bytes → List Bytes) :
    Keeps t (t.reorg sha abi accounts turns order) := by
  obtain ⟨perAccount,failed,done,lists⟩ := @reorgAccountsKeeps t abi (inOrder accounts Prod.fst t.perAccount.entries) sound.lists
    (fun e mem => sound.lists e.1 e.2 ((memIffGet ..).mp ((inOrderPerm _ _ _).mem_iff.mp mem)))
  unfold reorg rLock
  simp only [if_neg (ne_true_of_eq_false sound.unlocked),bind,Except.bind,done]
  exact Keeps.bind (r := .ok _) (.inr ⟨_,rfl,⟨sound.unlocked,lists⟩,rfl,le_rfl⟩) (fun t' sound' => removeAllKeeps sound' order _)

theorem addToListSize (sound : Usable t) (fresh : t.allTransactions.get tx.transaction.id = none) (published : Bool) :
    let t' := (t.addToList sha tx published).2
    t'.locked = false ∧ Lists t'.perAccount ∧ t'.config = t.config ∧
      t'.size = if ((t.accountList sha tx.transaction).add tx false).1.ok then t.size+1 else t.size := by
  have wf := AddressTransactions.addWellFormed (@accountListWellFormed sha t sound.lists tx.transaction) tx false
  have lists : Lists (t.perAccount.set (Generation.senderAddress sha tx.transaction) _) := listsSet sound.lists wf
  unfold addToList
  cases ok : ((t.accountList sha tx.transaction).add tx false).1.ok with
  | false =>
    simp only [ok,Bool.false_eq_true,if_false]
    exact ⟨sound.unlocked,lists,trivial,trivial⟩
  | true =>
    simp only [ok,if_true]
    refine ⟨sound.unlocked,lists,trivial,insertFresh (fun e mem same => ?_)⟩
    have hit := (memIffGet t.allTransactions e.1 e.2).mp mem
    rw [same,fresh] at hit
    cases hit

theorem overfullIff : t.overfull ↔ t.config.maxTransactions < t.size := Iff.rfl

theorem stepAttempt (op : Operation) : t.step sha text op = (t.attempt sha text op).toOption := by
  cases op <;> rfl

structure Bounded (fills : Prop) (r : Except Fault TransactionPool) : Prop where
  free : r ≠ .error .mutexHeld
  goes : fills → ∃ t', r.toOption = some t'
  next : ∀ t', r.toOption = some t' → Usable t' ∧ (t'.overfull ↔ fills)

theorem Keeps.bounded (keeps : Keeps t r) (room : ¬t.overfull) (calm : ¬fills) : Bounded fills r := by
  rcases keeps with rfl | ⟨u,rfl,usable,config,fewer⟩
  · exact ⟨nofun,fun full => absurd full calm,nofun⟩
  · refine ⟨nofun,fun full => absurd full calm,fun t' taken => ?_⟩
    cases taken
    refine ⟨usable,iff_of_false ?_ calm⟩
    rw [overfullIff] at room ⊢
    rw [config]
    omega

theorem attemptBounded (sound : Usable t) (room : ¬t.overfull) (op : Operation) :
    Bounded (t.Fills sha text op) (t.attempt sha text op) := by
  cases op with
  | remove id order => exact (removeKeeps sound id order).bounded room nofun
  | reorg abi accounts turns order => exact (reorgKeeps sound abi accounts turns order).bounded room nofun
  | add tx abi published accounts order =>
    by_cases admits : t.Admits text tx abi
    · obtain ⟨ok,done⟩ := @addAdmitted sha t text tx abi published accounts order sound.unlocked admits room
      obtain ⟨unlocked,lists,config,size⟩ := @addToListSize sha t ⟨tx,calculateFeePriority text tx⟩ sound admits.1 published
      simp only [attempt,done]
      refine ⟨nofun,fun _ => ⟨_,rfl⟩,fun t' taken => ?_⟩
      cases taken
      refine ⟨⟨unlocked,lists⟩,?_⟩
      have accepts := AddressTransactions.addOk (t.accountList sha tx) ⟨tx,calculateFeePriority text tx⟩ false
      simp only [overfullIff,config,size] at room ⊢
      cases added : ((t.accountList sha tx).add ⟨tx,calculateFeePriority text tx⟩ false).1.ok <;>
        simp [Fills,admits,← accepts,added] <;> omega
    · simp only [attempt,addRefused sound.unlocked admits]
      exact Keeps.bounded (.inr ⟨t,rfl,sound,rfl,le_rfl⟩) room (fun fills => admits fills.2.1)

end

/-- The pool stays within its size and no operation blocks, exactly if no Add is accepted into a full pool. -/
theorem poolBoundedIff (sha : Bytes → Bytes) (text : Normalizer) (cfg : Option TransactionPoolConfig) (operations : List Operation) :
    (∀ past t, past <+: operations → run (step sha text) (newTransactionPool cfg) past = some t →
        ¬t.overfull ∧ ∀ op, t.attempt sha text op ≠ .error .mutexHeld) ↔
      0 ≤ (newTransactionPool cfg).config.maxTransactions ∧ ∀ past op t, past ++ [op] <+: operations →
        run (step sha text) (newTransactionPool cfg) past = some t → ¬t.Fills sha text op := by
  have first : Usable (newTransactionPool cfg) := ⟨rfl,by simp [Lists,newTransactionPool,getEmpty]⟩
  have earlier : ∀ {past : List Operation} {op}, past ++ [op] <+: operations → past <+: operations := (prefix_append _ _).trans
  constructor
  · intro bounded
    have sound : ∀ {past t}, run (step sha text) (newTransactionPool cfg) past = some t → past <+: operations → Usable t :=
      runHistory (J := fun past t => past <+: operations → Usable t) (fun _ => first) (fun past t op t' ran sound taken within =>
        ((attemptBounded (sound (earlier within)) (bounded past t (earlier within) ran).1 op).next t' ((stepAttempt op).symm.trans taken)).1)
    refine ⟨not_lt.mp (bounded [] _ nil_prefix rfl).1,fun past op t within ran fills => ?_⟩
    obtain ⟨_,goes,next⟩ := @attemptBounded sha text t (sound ran (earlier within)) (bounded past t (earlier within) ran).1 op
    obtain ⟨t',taken⟩ := goes fills
    refine (bounded (past ++ [op]) t' within ?_).1 ((next t' taken).2.mpr fills)
    rw [runSnoc,ran]
    exact (stepAttempt op).trans taken
  · rintro ⟨start,calm⟩ past t within ran
    have all := runHistory (J := fun past t => past <+: operations → Usable t ∧ ¬t.overfull) (fun _ => ⟨first,not_lt.mpr start⟩)
      (fun past t op t' ran both taken within => ?_) ran within
    · exact ⟨all.2,fun op => (attemptBounded all.1 all.2 op).free⟩
    · obtain ⟨sound,room⟩ := both (earlier within)
      obtain ⟨sound',fills⟩ := (attemptBounded sound room op).next t' ((stepAttempt op).symm.trans taken)
      exact ⟨sound',fun full => calm past op t within ran (fills.mp full)⟩

theorem poolOverfills : (run (step id asciiText) (newTransactionPool (some ⟨1,0,0,0⟩)) [sampleAdd [1] 1 1000,sampleAdd [2] 2 1000]).map
    (fun t => (t.size, t.attempt id asciiText (sampleAdd [3] 3 2000))) = some (2, .error .mutexHeld) := by
  decide +kernel

end TransactionPool

end LiskEngine.Txpool
