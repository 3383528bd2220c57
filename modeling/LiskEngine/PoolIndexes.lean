import LiskEngine.StepRun
import LiskEngine.TxPool

/-! The indexes of the transaction pool over any sequence of operations. As long as no transaction takes
the place of another, every transaction enters and leaves all of them together. -/
namespace LiskEngine.Txpool.TransactionPool
open Blockchain Codec StepRun List OrderedMap AddressTransactions Generation

section
variable (sha : Bytes → Bytes) (text : Normalizer)

structure Agree (t : TransactionPool) : Prop where
  listed : ∀ tx, (∃ id, t.allTransactions.get id = some tx) ↔
    ∃ address list nonce, t.perAccount.get address = some list ∧ list.transactions.get nonce = some tx
  queued : ∀ tx, (∃ id, t.allTransactions.get id = some tx) ↔ tx ∈ t.feePriorityQueue
  nonempty : ∀ address list, t.perAccount.get address = some list → ∃ nonce tx, list.transactions.get nonce = some tx
  own : ∀ address list nonce tx, t.perAccount.get address = some list → list.transactions.get nonce = some tx →
    Generation.senderAddress sha tx.transaction = address ∧ tx.transaction.nonce = nonce

/-- An Add that passes the checks and finds the pool overfull, takes the place of another transaction, or
leaves an empty list because not even one transaction is allowed. -/
def Disturbs (t : TransactionPool) : Operation → Prop
  | .add tx abi _ _ _ => t.Admits text tx abi ∧
    (t.overfull ∨ (t.accountList sha tx).Displaces ⟨tx,calculateFeePriority text tx⟩ ∨
      (t.perAccount.get (Generation.senderAddress sha tx) = none ∧
        (t.accountList sha tx).Exceeds ⟨tx,calculateFeePriority text tx⟩))
  | _ => False

structure Indexed (t : TransactionPool) : Prop extends Agree sha t where
  unlocked : t.locked = false
  keyed : ∀ id tx, t.allTransactions.get id = some tx → tx.transaction.id = id
  wellFormed : ∀ address list, t.perAccount.get address = some list → list.WellFormed

end

theorem indexedNew (sha : Bytes → Bytes) (cfg : Option TransactionPoolConfig) : Indexed sha (newTransactionPool cfg) := by
  refine ⟨⟨?_,?_,?_,?_⟩,rfl,?_,?_⟩ <;> simp [newTransactionPool,getEmpty]

section
variable {sha : Bytes → Bytes} {t : TransactionPool} {tx : TransactionWithFeePriority} {list : AddressTransactions} {address : Bytes}

theorem inOrderPerm {α : Type} (order : List Bytes) (key : α → Bytes) (xs : List α) : (inOrder order key xs).Perm xs :=
  perm_insertionSort _ xs

theorem setListCases {perAccount : OrderedMap Bytes AddressTransactions} (hit : (perAccount.set sender list).get address = some l) :
    (address = sender ∧ l = list) ∨ (address ≠ sender ∧ perAccount.get address = some l) := by
  rw [getSet] at hit
  split at hit
  · exact .inl ⟨‹_›,(Option.some.inj hit).symm⟩
  · exact .inr ⟨‹_›,hit⟩

theorem storeListCases {perAccount} (hit : (storeList perAccount sender list).get address = some l) :
    (address = sender ∧ l = list ∧ l.size ≠ 0) ∨ (address ≠ sender ∧ perAccount.get address = some l) := by
  unfold storeList at hit
  split at hit
  · rw [getDel] at hit
    split at hit
    · cases hit
    · exact .inr ⟨‹_›,hit⟩
  · exact (setListCases hit).imp_left (fun ⟨here,same⟩ => ⟨here,same,same ▸ ‹_›⟩)

def slot (perAccount : OrderedMap Bytes AddressTransactions) (address : Bytes) (nonce : Nat) : Option TransactionWithFeePriority :=
  (perAccount.get address).bind (·.transactions.get nonce)

theorem slotSome {perAccount} : slot perAccount address nonce = some tx ↔
    ∃ list, perAccount.get address = some list ∧ list.transactions.get nonce = some tx :=
  Option.bind_eq_some_iff

theorem slotSet (perAccount : OrderedMap Bytes AddressTransactions) (sender address : Bytes) (list : AddressTransactions) (nonce : Nat) :
    slot (perAccount.set sender list) address nonce =
      if address = sender then list.transactions.get nonce else slot perAccount address nonce := by
  unfold slot
  rw [getSet]
  split <;> rfl

theorem slotStore (perAccount : OrderedMap Bytes AddressTransactions) (sender : Bytes) (wf : list.WellFormed) (address : Bytes)
    (nonce : Nat) : slot (storeList perAccount sender list) address nonce =
      if address = sender then list.transactions.get nonce else slot perAccount address nonce := by
  unfold storeList
  split
  · rename_i empty
    have nothing : list.transactions.get nonce = none := by
      by_contra held
      obtain ⟨tx,held⟩ := Option.ne_none_iff_exists'.mp held
      exact (sizeOccupied wf).mpr ⟨nonce,tx,held⟩ empty
    unfold slot
    rw [getDel,nothing]
    split <;> rfl
  · exact slotSet perAccount sender address list nonce

theorem unlockLocked (unlocked : t.locked = false) : unlock {t with locked := true} = t := by
  cases t
  cases unlocked
  rfl

theorem byID (keyed : ∀ id tx, t.allTransactions.get id = some tx → tx.transaction.id = id) :
    (∃ id, t.allTransactions.get id = some tx) ↔ t.allTransactions.get tx.transaction.id = some tx := by
  refine ⟨?_,fun held => ⟨_,held⟩⟩
  rintro ⟨id,held⟩
  rw [keyed id tx held]
  exact held

structure Lookups (sha : Bytes → Bytes) (t : TransactionPool) : Prop where
  keyed : ∀ id tx, t.allTransactions.get id = some tx → tx.transaction.id = id
  listed : ∀ tx, t.allTransactions.get tx.transaction.id = some tx ↔
    slot t.perAccount (Generation.senderAddress sha tx.transaction) tx.transaction.nonce = some tx
  queued : ∀ tx, t.allTransactions.get tx.transaction.id = some tx ↔ tx ∈ t.feePriorityQueue
  lists : ∀ address list, t.perAccount.get address = some list → list.WellFormed ∧ list.size ≠ 0
  own : ∀ address nonce tx, slot t.perAccount address nonce = some tx →
    Generation.senderAddress sha tx.transaction = address ∧ tx.transaction.nonce = nonce

theorem Indexed.lookups (indexed : Indexed sha t) : Lookups sha t where
  keyed := indexed.keyed
  listed tx := by
    rw [← byID indexed.keyed,indexed.listed,slotSome]
    constructor
    · rintro ⟨address,list,nonce,account,held⟩
      obtain ⟨rfl,rfl⟩ := indexed.own address list nonce tx account held
      exact ⟨list,account,held⟩
    · rintro ⟨list,account,held⟩
      exact ⟨_,list,_,account,held⟩
  queued tx := (byID indexed.keyed).symm.trans (indexed.queued tx)
  lists address list account := by
    have wf := indexed.wellFormed address list account
    exact ⟨wf,(sizeOccupied wf).mpr (indexed.nonempty address list account)⟩
  own address nonce tx held := by
    obtain ⟨list,account,held⟩ := slotSome.mp held
    exact indexed.own address list nonce tx account held

theorem Lookups.indexed (lookups : Lookups sha t) (unlocked : t.locked = false) : Indexed sha t := by
  have own : ∀ address list nonce tx, t.perAccount.get address = some list → list.transactions.get nonce = some tx →
      senderAddress sha tx.transaction = address ∧ tx.transaction.nonce = nonce :=
    fun address list nonce tx account held => lookups.own address nonce tx (slotSome.mpr ⟨list,account,held⟩)
  refine ⟨⟨fun tx => ?_,fun tx => (byID lookups.keyed).trans (lookups.queued tx),fun address list account => ?_,own⟩,
    unlocked,lookups.keyed,fun address list account => (lookups.lists address list account).1⟩
  · rw [byID lookups.keyed,lookups.listed,slotSome]
    constructor
    · rintro ⟨list,account,held⟩
      exact ⟨_,list,_,account,held⟩
    rintro ⟨address,list,nonce,account,held⟩
    obtain ⟨rfl,rfl⟩ := own address list nonce tx account held
    exact ⟨list,account,held⟩
  · obtain ⟨wf,occupied⟩ := lookups.lists address list account
    exact (sizeOccupied wf).mp occupied

theorem Lookups.change (lookups : Lookups sha t) {before after : Option TransactionWithFeePriority}
    (own : ∀ x, before = some x ∨ after = some x → x = tx) (all : t.allTransactions.get tx.transaction.id = before)
    (place : slot t.perAccount (senderAddress sha tx.transaction) tx.transaction.nonce = before) {t'}
    (txs : ∀ id, t'.allTransactions.get id = if id = tx.transaction.id then after else t.allTransactions.get id)
    (slots : ∀ address nonce, slot t'.perAccount address nonce =
      if address = senderAddress sha tx.transaction ∧ nonce = tx.transaction.nonce then after
      else slot t.perAccount address nonce)
    (queued : ∀ tx, t'.allTransactions.get tx.transaction.id = some tx ↔ tx ∈ t'.feePriorityQueue)
    (lists : ∀ address list, t'.perAccount.get address = some list → list.WellFormed ∧ list.size ≠ 0) : Lookups sha t' := by
  refine ⟨fun id tx' hit => ?_,fun tx' => ?_,queued,lists,fun address nonce tx' held => ?_⟩
  · rw [txs] at hit
    split at hit
    · cases own tx' (.inr hit)
      exact Eq.symm ‹_›
    · exact lookups.keyed id tx' hit
  · rw [txs,slots]
    by_cases same : tx' = tx
    · rw [if_pos (by rw [same]),if_pos (by simp [same])]
    have notBefore : before ≠ some tx' := fun hit => same (own tx' (.inl hit))
    have notAfter : after ≠ some tx' := fun hit => same (own tx' (.inr hit))
    have old := lookups.listed tx'
    split
    · rename_i id
      rw [id,all] at old
      split
      · rfl
      · rw [← old]
        exact iff_of_false notAfter notBefore
    · split
      · rename_i here
        rw [here.1,here.2,place] at old
        rw [old]
        exact iff_of_false notBefore notAfter
      · exact old
  · rw [slots] at held
    split at held
    · rename_i here
      cases own tx' (.inr held)
      exact ⟨here.1.symm,here.2.symm⟩
    · exact lookups.own address nonce tx' held

theorem Lookups.remove (lookups : Lookups sha t) (all : t.allTransactions.get tx.transaction.id = some tx)
    (account : t.perAccount.get (senderAddress sha tx.transaction) = some list)
    (txs : t'.allTransactions = t.allTransactions.del tx.transaction.id)
    (accounts : t'.perAccount = storeList t.perAccount (senderAddress sha tx.transaction) (list.remove tx.transaction.nonce).2)
    (queue : ∀ tx', tx' ∈ t'.feePriorityQueue ↔ ∃ id, t'.allTransactions.get id = some tx') : Lookups sha t' := by
  have kept := removeWellFormed (lookups.lists _ list account).1 tx.transaction.nonce
  have byIDs : ∀ id, t'.allTransactions.get id = if id = tx.transaction.id then none else t.allTransactions.get id := by
    intro id
    by_cases same : id = tx.transaction.id <;> simp [txs,getDel,same]
  refine @Lookups.change sha t tx lookups (some tx) none (by simp [eq_comm]) all ((lookups.listed tx).mp all) t' byIDs
    (fun address nonce => ?_) (fun tx' => ?_) (fun address l hit => ?_)
  · rw [accounts,slotStore _ _ kept,removeGet]
    by_cases here : address = senderAddress sha tx.transaction
    · simp [here,slot,account]
    · simp [here]
  · rw [queue]
    refine (byID (fun id tx' hit => ?_)).symm
    rw [byIDs] at hit
    split at hit
    · cases hit
    · exact lookups.keyed id tx' hit
  · rcases storeListCases (accounts ▸ hit) with ⟨_,rfl,occupied⟩ | ⟨_,old⟩
    · exact ⟨kept,occupied⟩
    · exact lookups.lists address l old

theorem removeIndexed (indexed : Indexed sha t) (id : Bytes) (order : List Bytes) :
    ∃ ok t', t.remove sha id order = .ok (ok,t') ∧ Indexed sha t' := by
  unfold remove lock
  rw [indexed.unlocked]
  simp only [Bool.false_eq_true,if_false,bind,Except.bind]
  split
  · exact ⟨false,t,by rw [unlockLocked indexed.unlocked],indexed⟩
  rename_i tx hit
  cases indexed.keyed id tx hit
  obtain ⟨list,account,_⟩ := slotSome.mp ((indexed.lookups.listed tx).mp hit)
  simp only [account]
  refine ⟨true,_,rfl,Lookups.indexed ?_ rfl⟩
  refine indexed.lookups.remove hit account rfl rfl (fun tx' => ?_)
  show tx' ∈ foldl (Heap.push feeLess) [] _ ↔ _
  rw [Heap.memPushAll]
  simp only [mem_map,(inOrderPerm _ _ _).mem_iff,Prod.exists,exists_eq_right,memIffGet,not_mem_nil,or_false]
  rfl

theorem Indexed.relist (indexed : Indexed sha t) (account : t.perAccount.get address = some list)
    (wf : list'.WellFormed) (same : list'.transactions = list.transactions) :
    Indexed sha {t with perAccount := t.perAccount.set address list'} := by
  have lookups := indexed.lookups
  have slots : ∀ addr' nonce, slot (t.perAccount.set address list') addr' nonce = slot t.perAccount addr' nonce := by
    intro addr' nonce
    rw [slotSet,same]
    split
    · simp [slot,account,‹addr' = address›]
    · rfl
  refine Lookups.indexed ⟨lookups.keyed,fun tx => (lookups.listed tx).trans (by rw [slots]),lookups.queued,
    fun addr' l hit => ?_,fun addr' nonce tx held => lookups.own addr' nonce tx ((slots ..).symm.trans held)⟩ indexed.unlocked
  rcases setListCases hit with ⟨rfl,rfl⟩ | ⟨_,stays⟩
  · refine ⟨wf,?_⟩
    obtain ⟨old,occupied⟩ := lookups.lists _ list account
    rw [sizeOccupied wf,same,← sizeOccupied old]
    exact occupied
  · exact lookups.lists addr' l stays

theorem verifyTransactionsFailed (failed : (verifyTransactions abi txs).1 ≠ txVerifyResultOk) :
    ∃ tx ∈ txs, (verifyTransactions abi txs).2 = some tx.id := by
  induction txs with
  | nil => exact absurd rfl failed
  | cons tx rest ih =>
    simp only [verifyTransactions] at failed ⊢
    cases answer : abi tx with
    | none => exact ⟨tx,by simp,rfl⟩
    | some res =>
      simp only [answer] at failed ⊢
      split
      · exact ⟨tx,by simp,rfl⟩
      rename_i fine
      rw [if_neg fine] at failed
      obtain ⟨tx',mem,id⟩ := ih failed
      exact ⟨tx',mem_cons_of_mem _ mem,id⟩

theorem reorgListKept (abi : Verifier) (wf : list.WellFormed) : ∃ list' failed, reorgList abi list = .ok (list',failed) ∧
    list'.WellFormed ∧ list'.transactions = list.transactions := by
  obtain ⟨promotables,promotable,_⟩ := getPromotableHeld wf
  obtain ⟨processables,proc,_⟩ := getProcessablesHeld wf
  have promoted : ∀ txs, (list.promote txs).2.WellFormed ∧ (list.promote txs).2.transactions = list.transactions :=
    fun txs => ⟨promoteWellFormed wf txs,promoteTransactions list txs⟩
  unfold reorgList
  rw [promotable,proc]
  simp only [bind,Except.bind]
  split
  · exact ⟨list,[],rfl,wf,rfl⟩
  split
  · exact ⟨_,[],rfl,promoted promotables⟩
  rename_i failed
  split
  · exact ⟨list,[],rfl,wf,rfl⟩
  obtain ⟨tx,mem,id⟩ := verifyTransactionsFailed failed
  split
  · rename_i absent
    rw [findIdx?_eq_none_iff] at absent
    exact absurd id.symm (by simpa using absent tx mem)
  refine ⟨_,_,rfl,?_⟩
  split
  · exact promoted _
  · exact ⟨wf,rfl⟩

theorem reorgAccountsIndexed (abi : Verifier) {es} (indexed : Indexed sha t)
    (accounts : ∀ e ∈ es, t.perAccount.get e.1 = some e.2) (nodup : (es.map Prod.fst).Nodup) :
    ∃ t' failed, t.reorgAccounts abi es = .ok (t',failed) ∧ Indexed sha t' := by
  induction es generalizing t with
  | nil => exact ⟨t,[],rfl,indexed⟩
  | cons e rest ih =>
    obtain ⟨address,list⟩ := e
    obtain ⟨fresh,nodup⟩ := nodup_cons.mp nodup
    have account := accounts (address,list) (by simp)
    obtain ⟨list',failed,done,wf,same⟩ := reorgListKept abi (indexed.wellFormed address list account)
    have later : ∀ e ∈ rest, (t.perAccount.set address list').get e.1 = some e.2 := by
      intro e mem
      rw [getSet,if_neg]
      · exact accounts e (.tail _ mem)
      · intro same
        exact fresh (mem_map.mpr ⟨e,mem,same⟩)
    obtain ⟨t',more,tail,indexed'⟩ := ih (indexed.relist account wf same) later nodup
    exact ⟨t',failed ++ more,by simp only [reorgAccounts,done,tail,bind,Except.bind],indexed'⟩

theorem removeAllIndexed (order : Bytes → List Bytes) (ids : List Bytes) (indexed : Indexed sha t) :
    ∃ t', removeAll sha order ids t = .ok t' ∧ Indexed sha t' := by
  induction ids generalizing t with
  | nil => exact ⟨t,rfl,indexed⟩
  | cons id rest ih =>
    obtain ⟨ok,middle,removed,indexed'⟩ := removeIndexed indexed id (order id)
    obtain ⟨t',tail,done⟩ := ih indexed'
    exact ⟨t',by simp only [removeAll,removed,tail,bind,Except.bind],done⟩

theorem reorgIndexed (abi : Verifier) (accounts turns : List Bytes) (order : Bytes → List Bytes) (indexed : Indexed sha t) :
    ∃ t', t.reorg sha abi accounts turns order = .ok t' ∧ Indexed sha t' := by
  have visited : ∀ e ∈ inOrder accounts Prod.fst t.perAccount.entries, t.perAccount.get e.1 = some e.2 :=
    fun e mem => (memIffGet t.perAccount e.1 e.2).mp ((inOrderPerm _ _ _).mem_iff.mp mem)
  have nodup : ((inOrder accounts Prod.fst t.perAccount.entries).map Prod.fst).Nodup := by
    rw [((inOrderPerm accounts Prod.fst t.perAccount.entries).map Prod.fst).nodup_iff]
    exact pairwise_map.mpr (t.perAccount.sorted.imp (fun inside => ne_of_lt inside))
  obtain ⟨promoted,failed,reorganised,indexed'⟩ := reorgAccountsIndexed abi indexed visited nodup
  obtain ⟨t',removed,done⟩ := removeAllIndexed order (inOrder turns id failed) indexed'
  refine ⟨t',?_,done⟩
  simp only [reorg,rLock,indexed.unlocked,Bool.false_eq_true,if_false,reorganised,removed,bind,Except.bind]

theorem accountListSlot (t : TransactionPool) (tx : Transaction) (nonce : Nat) :
    (t.accountList sha tx).transactions.get nonce = slot t.perAccount (senderAddress sha tx) nonce := by
  unfold accountList slot
  cases t.perAccount.get (senderAddress sha tx) <;> rfl

theorem accountListFound {tx} (account : t.perAccount.get (senderAddress sha tx) = some list) : t.accountList sha tx = list := by
  rw [accountList,account]
  rfl

theorem accountListWellFormed (lists : ∀ address list, t.perAccount.get address = some list → list.WellFormed) (tx : Transaction) :
    (t.accountList sha tx).WellFormed := by
  unfold accountList
  cases account : t.perAccount.get (senderAddress sha tx) with
  | none => exact newWellFormed _ _ _
  | some list => exact lists _ list account

theorem Lookups.insert (lookups : Lookups sha t) (fresh : t.allTransactions.get tx.transaction.id = none)
    (free : (t.accountList sha tx.transaction).transactions.get tx.transaction.nonce = none) (wf : list'.WellFormed)
    (gets : ∀ n, list'.transactions.get n = if n = tx.transaction.nonce then some tx else
      (t.accountList sha tx.transaction).transactions.get n) (txs : t'.allTransactions = t.allTransactions.set tx.transaction.id tx)
    (accounts : t'.perAccount = t.perAccount.set (senderAddress sha tx.transaction) list')
    (queue : ∀ tx', tx' ∈ t'.feePriorityQueue ↔ tx' = tx ∨ tx' ∈ t.feePriorityQueue) : Lookups sha t' := by
  refine @Lookups.change sha t tx lookups none (some tx) (by simp [eq_comm]) fresh ((accountListSlot ..).symm.trans free) t'
    (fun id => ?_) (fun address nonce => ?_) (fun tx' => ?_) (fun address l hit => ?_)
  · by_cases same : id = tx.transaction.id <;> simp [txs,getSet,same]
  · rw [accounts,slotSet,gets,accountListSlot]
    by_cases here : address = senderAddress sha tx.transaction <;> simp [here]
  · rw [queue,← lookups.queued,txs,getSet]
    split
    · rename_i same
      rw [same,fresh]
      simp [eq_comm]
    · rename_i other
      rw [or_iff_right (fun same => other (congrArg (·.transaction.id) same))]
  · rcases setListCases (accounts ▸ hit) with ⟨_,rfl⟩ | ⟨_,old⟩
    · exact ⟨wf,(sizeOccupied wf).mpr ⟨_,tx,by rw [gets,if_pos rfl]⟩⟩
    · exact lookups.lists address l old

theorem addToListIndexed (indexed : Indexed sha t) (fresh : t.allTransactions.get tx.transaction.id = none) (published : Bool)
    (plain : ¬(t.accountList sha tx.transaction).Displaces tx)
    (room : ¬(t.perAccount.get (senderAddress sha tx.transaction) = none ∧ (t.accountList sha tx.transaction).Exceeds tx)) :
    Indexed sha (t.addToList sha tx published).2 := by
  have wf := @accountListWellFormed sha t indexed.wellFormed tx.transaction
  unfold addToList
  simp only
  split
  · rename_i ok
    obtain ⟨free,gets⟩ := addGet wf plain ok
    exact Lookups.indexed (indexed.lookups.insert fresh free (addWellFormed wf tx false) gets rfl rfl
      (fun tx' => Heap.memPush)) indexed.unlocked
  rename_i rejected
  have rejected := Bool.eq_false_iff.mpr rejected
  cases account : t.perAccount.get (senderAddress sha tx.transaction) with
  | none =>
    have free : (t.accountList sha tx.transaction).transactions.get tx.transaction.nonce = none := by
      simp [accountListSlot,slot,account]
    exact absurd ⟨account,addExceeds.mpr ⟨free,rejected⟩⟩ room
  | some list =>
    rw [addRejected rejected]
    exact indexed.relist account wf (by rw [accountListFound account])

theorem addToListDisturbed (indexed : Indexed sha t) (fresh : t.allTransactions.get tx.transaction.id = none) (published : Bool)
    (disturbs : (t.accountList sha tx.transaction).Displaces tx ∨
      (t.perAccount.get (senderAddress sha tx.transaction) = none ∧ (t.accountList sha tx.transaction).Exceeds tx)) :
    ¬Agree sha (t.addToList sha tx published).2 := by
  have wf := @accountListWellFormed sha t indexed.wellFormed tx.transaction
  intro agree
  rcases disturbs with displaces | ⟨missing,exceeds⟩
  · have new : (t.accountList sha tx.transaction).transactions.get tx.transaction.nonce ≠ some tx := by
      rw [accountListSlot,Ne,← indexed.lookups.listed,fresh]
      simp
    obtain ⟨ok,n,old,held,gone⟩ := @addDisplaces _ _ false wf displaces new
    rw [accountListSlot] at held
    obtain ⟨sender,nonce⟩ := indexed.lookups.own _ n old held
    have all : t.allTransactions.get old.transaction.id = some old := by
      rw [indexed.lookups.listed,sender,nonce]
      exact held
    have other : old.transaction.id ≠ tx.transaction.id := by
      intro same
      rw [same,fresh] at all
      cases all
    unfold addToList at agree
    simp only [ok,if_true] at agree
    obtain ⟨address,list,nonce',account',held'⟩ := (agree.listed old).mp ⟨old.transaction.id,by simpa [getSet,other] using all⟩
    obtain ⟨rfl,rfl⟩ := agree.own address list nonce' old account' held'
    have stored := slotSome.mpr ⟨list,account',held'⟩
    rw [slotSet,if_pos sender,nonce] at stored
    exact gone stored
  · obtain ⟨free,rejected⟩ := (@addExceeds _ _ false).mp exceeds
    unfold addToList at agree
    simp only [rejected,Bool.false_eq_true,if_false] at agree
    obtain ⟨n,old,held⟩ := agree.nonempty (senderAddress sha tx.transaction) _ (by rw [getSet,if_pos rfl])
    rw [addRejected rejected,accountListSlot,slot,missing] at held
    cases held

variable {text : Normalizer}

theorem addToListUnlock (unlocked : t.locked = false) (tx : TransactionWithFeePriority) (published : Bool) :
    (addToList sha {t with locked := true} tx published).2.unlock = (t.addToList sha tx published).2 := by
  have list : accountList sha {t with locked := true} tx.transaction = t.accountList sha tx.transaction := rfl
  unfold addToList
  rw [list]
  cases ok : ((t.accountList sha tx.transaction).add tx false).1.ok <;> simp [ok,unlock,unlocked]

theorem addRefused {tx abi published accounts order} (unlocked : t.locked = false) (refused : ¬t.Admits text tx abi) :
    t.add sha text tx abi published accounts order = .ok (false,t) := by
  have refused : ¬Admits text {t with locked := true} tx abi := refused
  simp only [add,lock,unlocked,Bool.false_eq_true,if_false,bind,Except.bind]
  rw [if_neg refused,unlockLocked unlocked]

theorem addBlocked {tx abi published accounts order} (unlocked : t.locked = false) (admits : t.Admits text tx abi)
    (overfull : t.overfull) : t.add sha text tx abi published accounts order = .error .mutexHeld := by
  have admits : Admits text {t with locked := true} tx abi := admits
  have overfull : TransactionPool.overfull {t with locked := true} := overfull
  simp only [add,lock,unlocked,Bool.false_eq_true,if_false,bind,Except.bind]
  rw [if_pos admits,if_pos overfull]
  rfl

theorem addAdmitted {tx abi published accounts order} (unlocked : t.locked = false) (admits : t.Admits text tx abi)
    (room : ¬t.overfull) : ∃ ok, t.add sha text tx abi published accounts order =
      .ok (ok,(t.addToList sha ⟨tx,calculateFeePriority text tx⟩ published).2) := by
  have admits : Admits text {t with locked := true} tx abi := admits
  have room : ¬TransactionPool.overfull {t with locked := true} := room
  simp only [add,lock,unlocked,Bool.false_eq_true,if_false,bind,Except.bind]
  rw [if_pos admits,if_neg room]
  exact ⟨_,by rw [addToListUnlock unlocked]⟩

theorem stepIndexed (indexed : Indexed sha t) {op} (calm : ¬t.Disturbs sha text op) :
    ∃ t', t.step sha text op = some t' ∧ Indexed sha t' := by
  cases op with
  | add tx abi published accounts order =>
    by_cases admits : t.Admits text tx abi
    · have quiet := fun disturbs => calm ⟨admits,disturbs⟩
      obtain ⟨room,quiet⟩ := not_or.mp quiet
      obtain ⟨plain,fits⟩ := not_or.mp quiet
      obtain ⟨ok,done⟩ := @addAdmitted sha t text tx abi published accounts order indexed.unlocked admits room
      exact ⟨_,by simp only [step,done]; rfl,addToListIndexed indexed admits.1 published plain fits⟩
    · exact ⟨t,by simp only [step,addRefused indexed.unlocked admits]; rfl,indexed⟩
  | remove id order =>
    obtain ⟨ok,t',done,indexed'⟩ := removeIndexed indexed id order
    exact ⟨t',by simp only [step,done]; rfl,indexed'⟩
  | reorg abi accounts turns order =>
    obtain ⟨t',done,indexed'⟩ := reorgIndexed abi accounts turns order indexed
    exact ⟨t',by simp only [step,done]; rfl,indexed'⟩

theorem stepDisturbed (indexed : Indexed sha t) {op} (disturbs : t.Disturbs sha text op) {t'}
    (done : t.step sha text op = some t') : ¬Agree sha t' := by
  cases op with
  | add tx abi published accounts order =>
    obtain ⟨admits,cause⟩ := disturbs
    by_cases overfull : t.overfull
    · simp only [step,addBlocked indexed.unlocked admits overfull] at done
      cases done
    obtain ⟨ok,added⟩ := @addAdmitted sha t text tx abi published accounts order indexed.unlocked admits overfull
    simp only [step,added] at done
    cases done
    exact addToListDisturbed indexed admits.1 published (cause.resolve_left overfull)
  | remove | reorg => exact disturbs.elim

end

theorem indexesAgreeIff (sha : Bytes → Bytes) (text : Normalizer) (cfg : Option TransactionPoolConfig) (operations : List Operation) :
    (∀ past, past <+: operations → ∃ t, run (step sha text) (newTransactionPool cfg) past = some t ∧ Agree sha t) ↔
      ∀ past operation t, past ++ [operation] <+: operations → run (step sha text) (newTransactionPool cfg) past = some t →
        ¬t.Disturbs sha text operation := by
  constructor
  · intro agree
    have next : ∀ past operation t, past ++ [operation] <+: operations →
        run (step sha text) (newTransactionPool cfg) past = some t → Indexed sha t → ¬t.Disturbs sha text operation := by
      intro past operation t within ran indexed disturbs
      obtain ⟨t',ran',agrees⟩ := agree _ within
      rw [runSnoc,ran] at ran'
      exact stepDisturbed indexed disturbs ran' agrees
    have indexed := runCompletes (indexedNew sha cfg) (fun past operation t within ran indexed =>
      stepIndexed indexed (next past operation t within ran indexed))
    intro past operation t within ran
    obtain ⟨t',ran',indexed⟩ := indexed past ((prefix_append past [operation]).trans within)
    cases ran.symm.trans ran'
    exact next past operation t within ran indexed
  · intro calm past within
    obtain ⟨t,ran,indexed⟩ := runCompletes (indexedNew sha cfg) (fun past operation t within ran indexed =>
      stepIndexed indexed (calm past operation t within ran)) past within
    exact ⟨t,ran,indexed.toAgree⟩

def sampleTx (id : Bytes) (nonce fee : Nat) : Transaction := ⟨id,"token","transfer",nonce,fee,[1],[],[]⟩

def sampleAdd (id : Bytes) (nonce fee : Nat) : Operation :=
  .add (sampleTx id nonce fee) (fun _ => some txVerifyResultOk) true [] (fun _ => [])

def indexedIDs (t : TransactionPool) : List Bytes × List (Bytes × List Bytes) × List Bytes :=
  (t.allTransactions.entries.map Prod.fst,
    t.perAccount.entries.map (fun e => (e.1, e.2.transactions.entries.map (·.2.transaction.id))),
    t.feePriorityQueue.map (·.transaction.id))

theorem displacedStays :
    (run (step id asciiText) (newTransactionPool none) [sampleAdd [1] 1 1000, sampleAdd [2] 1 2000]).map indexedIDs =
      some ([[1], [2]], [([1], [[2]])], [[1], [2]]) ∧
    (run (step id asciiText) (newTransactionPool (some ⟨0, 1, 0, 0⟩)) [sampleAdd [1] 5 1000, sampleAdd [2] 3 1000]).map indexedIDs =
      some ([[1], [2]], [([1], [[2]])], [[1], [2]]) ∧
    (run (step id asciiText) (newTransactionPool (some ⟨0, -1, 0, 0⟩)) [sampleAdd [1] 1 1000]).map indexedIDs =
      some ([], [([1], [])], []) ∧ run (step id asciiText) (newTransactionPool (some ⟨1, 0, 0, 0⟩))
      [sampleAdd [1] 1 1000, sampleAdd [2] 2 1000, sampleAdd [3] 3 2000] = none := by
  refine ⟨by decide +kernel,by decide +kernel,by decide +kernel,by decide +kernel⟩

end LiskEngine.Txpool.TransactionPool
