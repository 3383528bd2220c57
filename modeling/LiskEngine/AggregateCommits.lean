import LiskEngine.AggregationBits
import LiskEngine.BftReachable

/-! The aggregate commit a node produces, checked by its own verifier. The creator
numbers the BLS keys downwards and the verifier upwards, so a bit set for one
validator is read for the one at the mirrored position. -/
namespace LiskEngine.Consensus
open Liskbft Diffdb List Except AddressKeyPair

/-- An aggregate verifies for exactly the set of keys whose signatures were combined. -/
structure IdealBls (bls : Bls) (sign : Bytes → Bytes → Bytes) : Prop where
  nonempty : ∀ signatures, bls.aggregate signatures ≠ []
  exact : ∀ keys message signers, signers ≠ [] →
    (bls.fastAggregateVerify keys message (bls.aggregate (signers.map (sign · message))) = true ↔
      ∀ key, key ∈ keys ↔ key ∈ signers)

structure SignedCommit (c : Engine) (chain : Chain) (store : ConsensusStore) (sign : Bytes → Bytes → Bytes)
    (commit : SingleCommit) (header : BlockHeader) (params : BFTParams) (v : BFTValidator) : Prop where
  block : getBlockHeaderByHeight chain commit.height = .ok header
  parameters : API.getBFTParameters store commit.height = .ok params
  distinct : (params.validators.map (·.address)).Nodup
  active : v ∈ params.validators
  address : v.address = commit.validatorAddress
  signature : commit.certificateSignature =
    sign v.blsKey (c.certificateMessage c.chainID (newCertificateFromBlock header))

def PoolSigned (c : Engine) (chain : Chain) (store : ConsensusStore) (sign : Bytes → Bytes → Bytes) (pool : Pool) :
    Prop :=
  ∀ commit ∈ pool.gossiped ++ pool.nonGossiped, ∃ header params v, SignedCommit c chain store sign commit header params v

def signingValidators (params : BFTParams) (commits : List SingleCommit) : List BFTValidator :=
  commits.filterMap (fun commit => BFTValidator.find params.validators commit.validatorAddress)

def Eligible (store : ConsensusStore) (pool : Pool) (height : Nat) (params : BFTParams) : Prop :=
  API.getBFTParameters store height = .ok params ∧ pool.get height ≠ [] ∧
    params.certificateThreshold ≤ u64 ((signingValidators params (pool.get height)).map (·.bftWeight)).sum

structure Chosen (store : ConsensusStore) (pool : Pool) (low high height : Nat) (params : BFTParams) : Prop where
  above : low < height
  within : height ≤ high
  eligible : Eligible store pool height params
  highest : ∀ height' params', height < height' → height' ≤ high → ¬ Eligible store pool height' params'

def signedAt (params : BFTParams) (commits : List SingleCommit) (position : Nat) : Bool :=
  (signingValidators params commits).any
    (fun v => (params.validators.filter (fun w => v.blsKey < w.blsKey)).length == position)

def mirrored (params : BFTParams) (commits : List SingleCommit) : List ValidatorWithBLSKey :=
  chosenEntries (signedAt params commits) 0 (validatorsWithBLSKey params)

structure MirrorSigned (params : BFTParams) (commits : List SingleCommit) : Prop where
  keys : ∀ key, key ∈ (mirrored params commits).map (·.blsKey) ↔
    key ∈ (signingValidators params commits).map (·.blsKey)
  reached : params.certificateThreshold ≤ u64 ((mirrored params commits).map (·.bftWeight)).sum

theorem memPoolGet {pool : Pool} {height commit} :
    commit ∈ pool.get height ↔ commit ∈ pool.gossiped ++ pool.nonGossiped ∧ commit.height = height := by
  simp only [Pool.get,mem_append,mem_filter,decide_eq_true_eq]
  tauto

theorem findByAddress (nodup : (validators.map (·.address)).Nodup) (active : v ∈ validators) :
    BFTValidator.find validators v.address = some v := by
  unfold BFTValidator.find
  cases hit : validators.find? (·.address = v.address) with
  | none => exact absurd (find?_eq_none.mp hit v active) (by simp)
  | some w =>
    have same : w.address = v.address := by simpa using find?_some hit
    rw [inj_on_of_nodup_map nodup (mem_of_find?_eq_some hit) active same]

abbrev keyPairs (vals : List BFTValidator) : List AddressKeyPair := vals.map (fun v => ⟨v.address,v.blsKey⟩)

theorem keyByAddress {vals : List BFTValidator} (nodup : (vals.map (·.address)).Nodup) {v} (active : v ∈ vals) :
    find (sort (keyPairs vals)) v.address = some v.blsKey := by
  have perm := perm_insertionSort (fun a b : AddressKeyPair => b.blsKey ≤ a.blsKey) (keyPairs vals)
  unfold find sort
  cases hit : (insertionSort (fun a b : AddressKeyPair => b.blsKey ≤ a.blsKey) (keyPairs vals)).find? (·.address = v.address) with
  | none =>
    have mem := perm.mem_iff.mpr (mem_map_of_mem (f := fun v : BFTValidator =>
      (⟨v.address,v.blsKey⟩ : AddressKeyPair)) active)
    exact absurd (find?_eq_none.mp hit _ mem) (by simp)
  | some kp =>
    have same : kp.address = v.address := by simpa using find?_some hit
    obtain ⟨w,listed,rfl⟩ := mem_map.mp (perm.mem_iff.mp (mem_of_find?_eq_some hit))
    rw [inj_on_of_nodup_map nodup listed active same]
    rfl

theorem commitsWeightSum
    (known : ∀ commit ∈ commits, (BFTValidator.find params.validators commit.validatorAddress).isSome) (total : Nat) :
    commitsWeight params (u64 total) commits = .ok (u64 (total+((signingValidators params commits).map (·.bftWeight)).sum)) := by
  induction commits generalizing total with
  | nil => simp [commitsWeight,signingValidators]
  | cons commit rest ih =>
    obtain ⟨v,hit⟩ := Option.isSome_iff_exists.mp (known commit (.head _))
    have step : u64 (u64 total+v.bftWeight) = u64 (total+v.bftWeight) := by
      unfold u64
      omega
    simp only [commitsWeight,hit]
    rw [step,ih (fun commit mem => known commit (.tail _ mem))]
    simp [signingValidators,hit,add_assoc]

theorem signerActive (mem : v ∈ signingValidators params commits) : v ∈ params.validators := by
  obtain ⟨commit,_,hit⟩ := mem_filterMap.mp mem
  exact mem_of_find?_eq_some hit

structure HeightSigned (c : Engine) (chain : Chain) (store : ConsensusStore) (sign : Bytes → Bytes → Bytes)
    (commits : List SingleCommit) (height : Nat) (header : BlockHeader) (params : BFTParams) : Prop where
  block : getBlockHeaderByHeight chain height = .ok header
  parameters : API.getBFTParameters store height = .ok params
  distinct : (params.validators.map (·.address)).Nodup
  signed : ∀ commit ∈ commits, ∃ v ∈ params.validators, v.address = commit.validatorAddress ∧
    commit.certificateSignature = sign v.blsKey (c.certificateMessage c.chainID (newCertificateFromBlock header))

theorem heightSigned {c : Engine} {chain store sign pool} (signed : PoolSigned c chain store sign pool) {height}
    (held : pool.get height ≠ []) : ∃ header params, HeightSigned c chain store sign (pool.get height) height header params := by
  obtain ⟨first,mem⟩ := exists_mem_of_ne_nil _ held
  obtain ⟨listed,atHeight⟩ := memPoolGet.mp mem
  obtain ⟨header,params,_,one⟩ := signed first listed
  refine ⟨header,params,atHeight ▸ one.block,atHeight ▸ one.parameters,one.distinct,fun commit mem => ?_⟩
  obtain ⟨listed',atHeight'⟩ := memPoolGet.mp mem
  obtain ⟨header',params',v,other⟩ := signed commit listed'
  have sameHeader : header' = header := ok.inj
    (other.block.symm.trans ((congrArg _ (atHeight'.trans atHeight.symm)).trans one.block))
  have sameParams : params' = params := ok.inj
    (other.parameters.symm.trans ((congrArg _ (atHeight'.trans atHeight.symm)).trans one.parameters))
  subst sameHeader sameParams
  exact ⟨v,other.active,other.address,other.signature⟩

section HeightSigned
variable {c : Engine} {chain : Chain} {store : ConsensusStore} {sign : Bytes → Bytes → Bytes}
  {commits : List SingleCommit} {height : Nat} {header : BlockHeader} {params : BFTParams}

section
variable (at_ : HeightSigned c chain store sign commits height header params)
include at_

theorem HeightSigned.known : ∀ commit ∈ commits, (BFTValidator.find params.validators commit.validatorAddress).isSome := by
  intro commit mem
  obtain ⟨v,active,addr,_⟩ := at_.signed commit mem
  rw [← addr,findByAddress at_.distinct active]
  rfl

theorem HeightSigned.pairs : signaturePairs (sort (keyPairs params.validators)) commits =
      .ok ((signingValidators params commits).map (fun v =>
        (v.blsKey,sign v.blsKey (c.certificateMessage c.chainID (newCertificateFromBlock header))))) := by
  have nodup := at_.distinct
  have signed := at_.signed
  clear at_
  induction commits with
  | nil => rfl
  | cons commit rest ih =>
    obtain ⟨v,active,addr,signature⟩ := signed commit (.head _)
    have others := ih (fun commit mem => signed commit (.tail _ mem))
    have key := keyByAddress nodup active
    have val := findByAddress nodup active
    rw [addr] at key val
    unfold signaturePairs
    simp only [key,others,bind,Except.bind]
    simp [signingValidators,val,signature]

theorem HeightSigned.signers (held : commits ≠ []) : signingValidators params commits ≠ [] := by
  obtain ⟨commit,mem⟩ := exists_mem_of_ne_nil _ held
  obtain ⟨v,hit⟩ := Option.isSome_iff_exists.mp (at_.known commit mem)
  exact ne_nil_of_mem (mem_filterMap.mpr ⟨commit,mem,hit⟩)

end

theorem descendingIndex {keys : List Bytes} (sorted : keys.Pairwise (fun a b => b ≤ a)) (mem : key ∈ keys) :
    keys.findIdx? (· = key) = some (keys.filter (fun k => key < k)).length := by
  induction keys with
  | nil => cases mem
  | cons first rest ih =>
    obtain ⟨below,tail⟩ := pairwise_cons.mp sorted
    rw [findIdx?_cons,filter_cons]
    by_cases same : first = key
    · have absent : rest.filter (fun k => key < k) = [] := by
        rw [filter_eq_nil_iff]
        intro k listed
        simpa [← same] using below k listed
      simp [same,absent]
    · have listed : key ∈ rest := (mem_cons.mp mem).resolve_left (Ne.symm same)
      have greater : key < first := lt_of_le_of_ne (below key listed) (Ne.symm same)
      simp [same,greater,ih tail listed]

theorem sortedKeys (vals : List BFTValidator) :
    let keys := (sort (keyPairs vals)).map (·.blsKey)
    keys.Pairwise (fun a b => b ≤ a) ∧ keys.Perm (vals.map (·.blsKey)) := by
  refine ⟨pairwise_map.mpr (pairwise_insertionSort _ _),?_⟩
  have perm := (perm_insertionSort (fun a b : AddressKeyPair => b.blsKey ≤ a.blsKey)
    (keyPairs vals)).map (·.blsKey)
  rwa [map_map] at perm

theorem createdIndex {vals : List BFTValidator} {v} (active : v ∈ vals) : ((sort (keyPairs vals)).map (·.blsKey)).findIdx?
      (· = v.blsKey) = some (vals.filter (fun w => v.blsKey < w.blsKey)).length := by
  obtain ⟨sorted,perm⟩ := sortedKeys vals
  rw [descendingIndex sorted (perm.mem_iff.mpr (mem_map_of_mem active)),(perm.filter _).length_eq,filter_map,length_map]
  rfl

theorem marksFold (keys : List Bytes) (pairs : List (Bytes × Bytes)) (marks : Marks bits size marked) :
    Marks (pairs.foldl (writeKeyBit keys) bits) size
      (fun i => pairs.any (fun pair => keys.findIdx? (· = pair.1) == some i) || marked i) := by
  induction pairs generalizing bits marked with
  | nil => simpa using marks
  | cons pair rest ih =>
    rw [foldl_cons,writeKeyBit]
    cases hit : keys.findIdx? (· = pair.1) with
    | none =>
      refine ⟨fun i inside => ?_⟩
      rw [(ih marks).read i inside]
      simp [hit]
    | some index =>
      refine ⟨fun i inside => ?_⟩
      rw [(ih (marksWrite marks index)).read i inside]
      have same : (some index == some i) = decide (i = index) := by
        rw [Bool.eq_iff_iff,beq_iff_eq,Option.some.injEq,decide_eq_true_eq]
        exact eq_comm
      rw [any_cons,hit,same,Bool.or_assoc,Bool.or_left_comm]

theorem writeBitsLength {keys} (pairs : List (Bytes × Bytes)) (bits : Bytes) :
    (pairs.foldl (writeKeyBit keys) bits).length = bits.length := by
  induction pairs generalizing bits with
  | nil => rfl
  | cons pair rest ih =>
    rw [foldl_cons,ih,writeKeyBit]
    cases keys.findIdx? (· = pair.1) with
    | none => rfl
    | some index => exact writeBitLength bits index

theorem createdMarks {params : BFTParams} {commits} (signature : BFTValidator → Bytes) (i : Nat) :
    ((signingValidators params commits).map (fun v => (v.blsKey,signature v))).any (fun pair =>
      ((sort (keyPairs params.validators)).map (·.blsKey)).findIdx? (· = pair.1) == some i) = signedAt params commits i := by
  unfold signedAt
  rw [Bool.eq_iff_iff,any_map,any_eq_true,any_eq_true]
  refine exists_congr (fun v => and_congr_right (fun mem => ?_))
  rw [Function.comp_apply,createdIndex (signerActive mem)]
  simp

theorem HeightSigned.created (at_ : HeightSigned c chain store sign commits height header params)
    (held : commits ≠ []) (heights : ∀ commit ∈ commits, commit.height = height) :
    ∃ bits, bits ≠ [] ∧ Marks bits params.validators.length (signedAt params commits) ∧
      aggregateCommits c.bls commits (keyPairs params.validators) =
        .ok ⟨height,bits,c.bls.aggregate (((signingValidators params commits).map (·.blsKey)).map
          (sign · (c.certificateMessage c.chainID (newCertificateFromBlock header))))⟩ := by
  have pairs := at_.pairs
  have signer : ∀ v ∈ signingValidators params commits, v ∈ params.validators := fun v => signerActive
  have pos : 0 < params.validators.length := by
    obtain ⟨v,mem⟩ := exists_mem_of_ne_nil _ (at_.signers held)
    exact length_pos_of_mem (signer v mem)
  cases commits with
  | nil => exact absurd rfl held
  | cons first rest =>
    unfold aggregateCommits
    simp only [pairs,bind,bind,heights first (.head _),blsCreateAggSig]
    refine ⟨_,?_,?_,congrArg ok (congrArg _ (congrArg _ ?_))⟩
    · rw [Ne,← length_eq_zero_iff,writeBitsLength]
      simp only [length_replicate,length_map,sort,length_insertionSort]
      omega
    · have marks := marksFold ((sort (keyPairs params.validators)).map
        (·.blsKey)) ((signingValidators params (first::rest)).map (fun v =>
          (v.blsKey,sign v.blsKey (c.certificateMessage c.chainID (newCertificateFromBlock header)))))
        (marksStart params.validators.length)
      refine ⟨fun i inside => ?_⟩
      have read := marks.read i inside
      rw [createdMarks,Bool.or_false] at read
      simpa [sort] using read
    · simp only [map_map,Function.comp_def]

theorem HeightSigned.verified (at_ : HeightSigned c chain store sign commits height header params) (ideal : IdealBls c.bls sign)
    (held : commits ≠ []) (ne : bits ≠ []) (marks : Marks bits params.validators.length (signedAt params commits))
    (votes : store.votes.view () = some v) (small : v.maxHeightPrecommited ≤ maxUint32)
    (above : v.maxHeightCertified < height) (fit : height ≤ v.maxHeightPrecommited) :
    verifyAggregateCommit c chain store ⟨height,bits,c.bls.aggregate (((signingValidators params commits).map (·.blsKey)).map
          (sign · (c.certificateMessage c.chainID (newCertificateFromBlock header))))⟩ = .ok () ↔ MirrorSigned params commits := by
  have signers : (signingValidators params commits).map (·.blsKey) ≠ [] := by simpa using at_.signers held
  have exactly := ideal.exact ((mirrored params commits).map (·.blsKey))
    (c.certificateMessage c.chainID (newCertificateFromBlock header)) _ signers
  constructor
  · intro ok
    rcases verifyAggregateCommitOk votes ok with ⟨_,same⟩ | ⟨header',params',cert⟩
    · exact absurd same (ne_of_gt above)
    cases Except.ok.inj (cert.block.symm.trans at_.block)
    cases Except.ok.inj (cert.parameters.symm.trans at_.parameters)
    obtain ⟨reached,verifies⟩ := (verifyMarked marks).mp cert.verified
    exact ⟨exactly.mp verifies,reached⟩
  · intro mirror
    exact certifiesAccepted votes (le_trans fit small) ⟨ne,ideal.nonempty _,above,fit,at_.block,
      at_.parameters,(verifyMarked marks).mpr ⟨mirror.reached,exactly.mpr mirror.keys⟩⟩

end HeightSigned

section Search
variable {c : Engine} {chain : Chain} {store : ConsensusStore} {sign : Bytes → Bytes → Bytes} {pool : Pool}

theorem chosenUnique (one : Chosen store pool low high height params) (other : Chosen store pool low high height' params') :
    height' = height ∧ params' = params := by
  have same : height' = height := by
    rcases lt_trichotomy height' height with smaller | same | more
    · exact absurd one.eligible (other.highest _ _ smaller one.within)
    · exact same
    · exact absurd other.eligible (one.highest _ _ more other.within)
  subst same
  exact ⟨rfl,ok.inj (other.eligible.1.symm.trans one.eligible.1)⟩

theorem chosenDown (not : ∀ params', ¬ Eligible store pool (high+1) params') :
    Chosen store pool low (high+1) height params ↔ Chosen store pool low high height params := by
  constructor
  · intro chosen
    have other : height ≠ high+1 := fun same => not params (same ▸ chosen.eligible)
    have fit := chosen.within
    exact ⟨chosen.above,by omega,chosen.eligible,fun height' params' more le => chosen.highest _ _ more (by omega)⟩
  intro chosen
  refine ⟨chosen.above,Nat.le_succ_of_le chosen.within,chosen.eligible,fun height' params' more le => ?_⟩
  rcases lt_or_eq_of_le le with smaller | same
  · exact chosen.highest _ _ more (by omega)
  · exact same ▸ not params'

theorem aggregateFromSpec (signed : PoolSigned c chain store sign pool) (low high : Nat) :
    (aggregateFrom c store pool low high = .ok ⟨low,[],[]⟩ ∧ ∀ height params, ¬ Chosen store pool low high height params) ∨
    ∃ height params, Chosen store pool low high height params ∧ aggregateFrom c store pool low high =
      aggregateCommits c.bls (pool.get height) (keyPairs params.validators) := by
  induction high with
  | zero =>
    refine .inl ⟨rfl,fun height params chosen => ?_⟩
    have := chosen.above.trans_le chosen.within
    omega
  | succ high ih =>
    unfold aggregateFrom
    by_cases done : high+1 ≤ low
    · rw [if_pos done]
      refine .inl ⟨rfl,fun height params chosen => ?_⟩
      have := chosen.above.trans_le chosen.within
      omega
    rw [if_neg done]
    have lower : (∀ params', ¬ Eligible store pool (high+1) params') → (aggregateFrom c store pool low high = .ok ⟨low,[],[]⟩ ∧
          ∀ height params, ¬ Chosen store pool low (high+1) height params) ∨
        ∃ height params, Chosen store pool low (high+1) height params ∧ aggregateFrom c store pool low high =
          aggregateCommits c.bls (pool.get height) (keyPairs params.validators) := by
      intro not
      simpa only [chosenDown not] using ih
    by_cases held : pool.get (high+1) = []
    · simp only [held,length_nil,if_true]
      exact lower (fun _ eligible => eligible.2.1 held)
    obtain ⟨header,params,at_⟩ := heightSigned signed held
    have weight := commitsWeightSum at_.known 0
    rw [show u64 0 = 0 from rfl,zero_add] at weight
    simp only [length_eq_zero_iff,held,if_false,at_.parameters,liftBft,bind,Except.bind,weight]
    split
    · rename_i less
      refine lower (fun params' eligible => ?_)
      cases Except.ok.inj (eligible.1.symm.trans at_.parameters)
      exact not_le.mpr less eligible.2.2
    rename_i reached
    exact .inr ⟨high+1,params,⟨not_le.mp done,le_refl _,⟨at_.parameters,held,not_lt.mp reached⟩,
      fun height' params' more le => by omega⟩,rfl⟩

def searchStart (store : ConsensusStore) (v : BFTVotes) : Nat :=
  let next := nextParametersResult store (u32 (v.maxHeightCertified + 1))
  if next.1 then v.maxHeightPrecommited else min (u32 (next.2 + maxUint32)) v.maxHeightPrecommited

theorem getAggregateCommitFrom (votes : store.votes.view () = some v) :
    getAggregateCommit c store pool = aggregateFrom c store pool v.maxHeightCertified (searchStart store v) := by
  unfold getAggregateCommit API.getBFTHeights
  rw [getVotesOk.mpr votes]
  rfl

theorem searchStartBound (store : ConsensusStore) (v : BFTVotes) : searchStart store v ≤ v.maxHeightPrecommited := by
  unfold searchStart
  simp only
  split
  · exact le_refl _
  · exact min_le_right _ _

end Search

theorem producedAcceptedIff (c : Engine) (chain : Chain) (store : ConsensusStore) (pool : Pool)
    (sign : Bytes → Bytes → Bytes) (ideal : IdealBls c.bls sign) (signed : PoolSigned c chain store sign pool)
    (v : BFTVotes) (votes : store.votes.view () = some v) (small : v.maxHeightPrecommited ≤ maxUint32) :
    ∃ commit, getAggregateCommit c store pool = .ok commit ∧ (verifyAggregateCommit c chain store commit = .ok () ↔
        ∀ height params, Chosen store pool v.maxHeightCertified (searchStart store v) height params →
          MirrorSigned params (pool.get height)) := by
  rw [getAggregateCommitFrom votes]
  rcases aggregateFromSpec signed v.maxHeightCertified (searchStart store v) with
    ⟨empty,noneChosen⟩ | ⟨height,params,chosen,created⟩
  · refine ⟨_,empty,fun _ height params chosen => absurd chosen (noneChosen height params),fun _ => ?_⟩
    unfold verifyAggregateCommit API.getBFTHeights
    rw [getVotesOk.mpr votes]
    exact if_pos ⟨rfl,rfl⟩
  have held := chosen.eligible.2.1
  obtain ⟨header,params',at_⟩ := heightSigned signed held
  cases ok.inj (at_.parameters.symm.trans chosen.eligible.1)
  obtain ⟨bits,nonempty,marks,result⟩ := at_.created held (fun commit member => (memPoolGet.mp member).2)
  refine ⟨_,created.trans result,?_⟩
  rw [at_.verified ideal held nonempty marks votes small chosen.above
    (le_trans chosen.within (searchStartBound store v))]
  constructor
  · intro mirror height' params' other
    obtain ⟨rfl,rfl⟩ := chosenUnique chosen other
    exact mirror
  · intro all
    exact all height params chosen

def encodeKeys (keys : List Bytes) : Bytes := keys.flatMap (fun key => key.flatMap (fun byte => [1,byte]) ++ [0])

def decodeKeys : Bytes → Bytes → List Bytes
  | _, [] => []
  | key, [_] => [key]
  | key, tag :: byte :: rest =>
    if tag = 1 then decodeKeys (key ++ [byte]) rest else key :: decodeKeys [] (byte :: rest)

theorem decodeKey (start key rest : Bytes) :
    decodeKeys start (key.flatMap (fun byte => [1,byte]) ++ 0::rest) = (start ++ key)::decodeKeys [] rest := by
  induction key generalizing start with
  | nil =>
    cases rest with
    | nil | cons byte rest => simp [decodeKeys]
  | cons byte key ih =>
    have step := ih (start ++ [byte])
    simpa [decodeKeys] using step

theorem decodeEncode (keys : List Bytes) : decodeKeys [] (encodeKeys keys) = keys := by
  induction keys with
  | nil => rfl
  | cons key rest ih =>
    unfold encodeKeys at ih ⊢
    rw [flatMap_cons,append_assoc,singleton_append,decodeKey,ih,nil_append]

def sampleBls : Bls where
  aggregate := fun signatures => 2 :: encodeKeys signatures
  fastAggregateVerify := fun keys _ signature =>
    (decodeKeys [] signature.tail).all (· ∈ keys) && keys.all (· ∈ decodeKeys [] signature.tail)

theorem sampleIdeal : IdealBls sampleBls (fun key _ => key) where
  nonempty := fun _ => by simp [sampleBls]
  exact := by
    intro keys message signers _
    simp only [sampleBls,map_id',tail_cons,decodeEncode,Bool.and_eq_true,all_eq_true,decide_eq_true_eq]
    exact ⟨fun ⟨signed,listed⟩ key => ⟨listed key,signed key⟩, fun same => ⟨fun key => (same key).mpr,fun key => (same key).mp⟩⟩

def sampleBlsEngine : Engine := {sampleEngine with bls := sampleBls}

def sampleUnequal : List BFTValidator := [⟨[2],1,[2]⟩,⟨[1],2,[1]⟩]

def sampleTurns : List Event :=
  [.setBFTParameters 2 2 sampleUnequal,.setGeneratorKeys [⟨[1],[]⟩,⟨[2],[]⟩],.commit,
    .block 100 (sampleHeader 1 1 10 0 2 0 0),.commit,.block 100 (sampleHeader 2 2 20 1 1 0 0),.commit,
    .block 100 (sampleHeader 3 3 30 2 2 1 1),.commit,.block 100 (sampleHeader 4 4 40 3 1 2 2),.commit]

def sampleTurned : ChainState :=
  ((genesisState (sampleHeader 0 0 0 0 0 0 0)).run sampleBlsEngine.liskBFT (verifyBlockAccepts sampleBlsEngine)
    sampleTurns).getD (genesisState (sampleHeader 0 0 0 0 0 0 0))

def sampleTurnedVotes : BFTVotes := (sampleTurned.store.votes.view ()).getD ⟨0,0,0,[],[]⟩

def sampleCommit (validator : UInt8) : SingleCommit := ⟨[2],2,[validator],[validator],true⟩

theorem sampleSigned (vals : List UInt8) (known : ∀ key ∈ vals, key = 1 ∨ key = 2) :
    PoolSigned sampleBlsEngine sampleTurned.blocks sampleTurned.store (fun key _ => key) ⟨vals.map sampleCommit,[]⟩ := by
  intro commit mem
  obtain ⟨key,listed,rfl⟩ := mem_map.mp mem
  refine ⟨sampleHeader 2 2 20 1 1 0 0,⟨3,2,2,sampleUnequal,[]⟩,?_⟩
  rcases known key listed with rfl | rfl
  · exact ⟨⟨[1],2,[1]⟩,by rfl,by rfl,by decide,by decide,rfl,rfl⟩
  · exact ⟨⟨[2],1,[2]⟩,by rfl,by rfl,by decide,by decide,rfl,rfl⟩

theorem producedAcceptedBoth : ∃ commit,
    getAggregateCommit sampleBlsEngine sampleTurned.store ⟨[1, 2].map sampleCommit, []⟩ = .ok commit ∧
      (verifyAggregateCommit sampleBlsEngine sampleTurned.blocks sampleTurned.store commit = .ok () ↔
        ∀ height params, Chosen sampleTurned.store ⟨[1, 2].map sampleCommit, []⟩ sampleTurnedVotes.maxHeightCertified
            (searchStart sampleTurned.store sampleTurnedVotes) height params →
          MirrorSigned params (Pool.get ⟨[1, 2].map sampleCommit, []⟩ height)) :=
  producedAcceptedIff sampleBlsEngine sampleTurned.blocks sampleTurned.store _ _ sampleIdeal
    (sampleSigned [1,2] (by simp)) sampleTurnedVotes (by decide +kernel) (by decide +kernel)

theorem producedRejected :
    (genesisState (sampleHeader 0 0 0 0 0 0 0)).run sampleBlsEngine.liskBFT (verifyBlockAccepts sampleBlsEngine)
      sampleTurns = some sampleTurned ∧ IdealBls sampleBlsEngine.bls (fun key _ => key) ∧
    PoolSigned sampleBlsEngine sampleTurned.blocks sampleTurned.store (fun key _ => key) ⟨[sampleCommit 1], []⟩ ∧
    getAggregateCommit sampleBlsEngine sampleTurned.store ⟨[sampleCommit 1], []⟩ = .ok ⟨2, [2], sampleBls.aggregate [[1]]⟩ ∧
    verifyAggregateCommit sampleBlsEngine sampleTurned.blocks sampleTurned.store
      ⟨2, [2], sampleBls.aggregate [[1]]⟩ = .error .invalidCertificate :=
  ⟨by decide +kernel,sampleIdeal,sampleSigned [1] (by simp),by rfl,by rfl⟩

end LiskEngine.Consensus
