import LiskEngine.DiffdbHandles
import LiskEngine.GeneratorRun

/-! The status requests of the generator endpoint. They keep the info of a generator under one
prefix and a generation keeps it under that prefix put twice, so that there are two registers for
each address; neither sees what is written to the other. -/
namespace LiskEngine.Endpoint
open Codec Diffdb Generation Blockchain List OrderedMap

def generatorDBPrefixKeys : Bytes := [1]

def keysStore : View := ⟨generatorDBPrefixKeys⟩

def generatorInfoStore : View := ⟨generatorDBPrefixGeneratedInfo⟩

def keyTypePlain : String := "plain"

structure Keys where
  address : Bytes
  type : String
  data : Bytes
  deriving DecidableEq, Repr

def Keys.schema : Schema := .cons 1 .bytes (.cons 2 .string (.cons 3 .bytes .nil))

def Keys.ofValue : Keys.schema.Value → Keys
  | (address, type, data, _) => ⟨address,type,data⟩

structure PlainKeys where
  generatorKey : Bytes
  generatorPrivateKey : Bytes
  blsKey : Bytes
  blsPrivateKey : Bytes
  deriving DecidableEq, Repr

def PlainKeys.schema : Schema := .cons 1 .bytes (.cons 2 .bytes (.cons 3 .bytes (.cons 4 .bytes .nil)))

def PlainKeys.ofValue : PlainKeys.schema.Value → PlainKeys
  | (generatorKey, generatorPrivateKey, blsKey, blsPrivateKey, _) => ⟨generatorKey,generatorPrivateKey,blsKey,blsPrivateKey⟩

structure UpdateStatusRequest where
  generatorAddress : Bytes
  password : String
  enable : Bool
  height : Nat
  maxHeightGenerated : Nat
  maxHeightPrevoted : Nat
  deriving DecidableEq, Repr

structure SetStatusRequest where
  address : Bytes
  height : Nat
  maxHeightGenerated : Nat
  maxHeightPrevoted : Nat
  deriving DecidableEq, Repr

structure GeneratorStatus where
  address : Bytes
  enabled : Bool
  height : Nat
  maxHeightGenerated : Nat
  maxHeightPrevoted : Nat
  deriving DecidableEq, Repr

inductive EndpointError where
  | notStored (address : Bytes)
  | codec (e : CodecError)
  | decrypt
  | notSynced
  | contradictingInfo
  | noPreviousInfo
  | runtimePanic
  deriving DecidableEq, Repr

def orFail {α : Type} (e : EndpointError) : Option α → Except EndpointError α
  | some a => .ok a
  | none => .error e

theorem orFailOk {α : Type} {e x} {value : α} (ok : orFail e x = .ok value) : x = some value := by
  cases x with
  | none => cases ok
  | some b => cases ok; rfl

def orCodecError {α : Type} : Except CodecError α → Except EndpointError α
  | .ok a => .ok a
  | .error e => .error (.codec e)

structure GeneratorState where
  generator : Generator
  generatorDB : GeneratorDB

def headerHasPriority (header : BlockHeader) (height maxHeightPrevoted : Nat) : Bool :=
  if header.version = 0 then height ≤ header.height ∧ maxHeightPrevoted ≤ header.height
  else maxHeightPrevoted < header.maxHeightPrevoted ∨ maxHeightPrevoted = header.maxHeightPrevoted ∧ height < header.height

def UpdateStatusRequest.info (req : UpdateStatusRequest) : GeneratorInfo :=
  ⟨req.height,req.maxHeightPrevoted,req.maxHeightGenerated⟩

def SetStatusRequest.info (req : SetStatusRequest) : GeneratorInfo :=
  ⟨req.height,req.maxHeightPrevoted,req.maxHeightGenerated⟩

def statusOf (enabledKeys : OrderedMap Bytes Bytes) (address : Bytes) (info : GeneratorInfo) : GeneratorStatus :=
  ⟨address,(enabledKeys.get address).isSome,info.height,info.maxHeightGenerated,info.maxHeightPrevoted⟩

section
variable (text : Normalizer)

def decodeKeys (encoded : Bytes) : Except EndpointError Keys := (orCodecError (Keys.schema.decode text encoded)).map Keys.ofValue

def decodePlainKeys (encoded : Bytes) : Except EndpointError PlainKeys :=
  (orCodecError (PlainKeys.schema.decode text encoded)).map PlainKeys.ofValue

/-- An empty value counts as none. -/
def previousInfo : Option Bytes → Except EndpointError (Option GeneratorInfo)
  | none => .ok none
  | some [] => .ok none
  | some encodedInfo => (orCodecError (GeneratorInfo.decode text encodedInfo)).map some

def agrees (input : GeneratorInfo) : Option GeneratorInfo → Except EndpointError Unit
  | some previous => if input = previous then .ok () else .error .contradictingInfo
  | none => if input = ⟨0,0,0⟩ then .ok () else .error .noPreviousInfo

def verifyAndUpdateGeneratorInfo (store : Database Bytes Bytes) (generatorAddress : Bytes) (input : GeneratorInfo) :
    Except EndpointError (Database Bytes Bytes) := do
  let (encodedInfo, store) := generatorInfoStore.get store generatorAddress
  let previous ← previousInfo text encodedInfo
  agrees input previous
  let encodedGeneratorInfo ← orFail .runtimePanic (input.encode text)
  .ok (generatorInfoStore.set store generatorAddress encodedGeneratorInfo)

end

section
variable (decryptMessageWithPassword : Bytes → String → Option Bytes)

def plainKeysOf (text : Normalizer) (encodedKeys : Bytes) (password : String) : Except EndpointError PlainKeys := do
  let keys ← decodeKeys text encodedKeys
  if keys.type = keyTypePlain then decodePlainKeys text keys.data
  else
    let encodedPlainKeys ← orFail .decrypt (decryptMessageWithPassword keys.data password)
    decodePlainKeys text encodedPlainKeys

def handleUpdateStatus (lastBlock : BlockHeader) (s : GeneratorState) (req : UpdateStatusRequest) :
    Except EndpointError GeneratorState := do
  let encodedKeys ← orFail (.notStored req.generatorAddress) (keysStore.get (Database.new s.generatorDB) req.generatorAddress).1
  let plainKeys ← plainKeysOf decryptMessageWithPassword s.generator.text encodedKeys req.password
  if req.enable = false then
    .ok {s with generator := {s.generator with enabledKeys := s.generator.enabledKeys.del req.generatorAddress}}
  else if headerHasPriority lastBlock req.height req.maxHeightPrevoted = false then .error .notSynced
  else
    let geneInfoStore ←
      verifyAndUpdateGeneratorInfo s.generator.text (Database.new s.generatorDB) req.generatorAddress req.info
    .ok ⟨{s.generator with enabledKeys := s.generator.enabledKeys.set req.generatorAddress plainKeys.generatorPrivateKey},
      applyWrites s.generatorDB geneInfoStore.commit.1⟩

def handleSetStatus (s : GeneratorState) (req : SetStatusRequest) : Except EndpointError GeneratorState := do
  let encodedGeneratorInfo ← orFail .runtimePanic (req.info.encode s.generator.text)
  let store := generatorInfoStore.set (Database.new s.generatorDB) req.address encodedGeneratorInfo
  .ok {s with generatorDB := applyWrites s.generatorDB store.commit.1}

def handleGetStatus (s : GeneratorState) : Except EndpointError (List GeneratorStatus) := do
  let (encodedGeneratorInfoList, _) ← orFail .runtimePanic (generatorInfoStore.iterate (Database.new s.generatorDB) [] (-1) false)
  encodedGeneratorInfoList.mapM (fun encoded => do
    let info ← orCodecError (GeneratorInfo.decode s.generator.text encoded.2)
    .ok (statusOf s.generator.enabledKeys encoded.1 info))

end

inductive StatusOperation where
  | setStatus (req : SetStatusRequest)
  | updateStatus (lastBlock : BlockHeader) (req : UpdateStatusRequest)
  | forge (situation : Situation)

namespace GeneratorState

section
variable {σ : Type} (decryptMessageWithPassword : Bytes → String → Option Bytes) (app : Labi.App σ)

def step (s : GeneratorState) : StatusOperation → GeneratorState
  | .setStatus req => (handleSetStatus s req).toOption.getD s
  | .updateStatus lastBlock req => (handleUpdateStatus decryptMessageWithPassword lastBlock s req).toOption.getD s
  | .forge situation =>
    match s.generator.forge app {situation with generatorDB := s.generatorDB} with
    | .ok (_, generatorDB) => {s with generatorDB := generatorDB}
    | .error _ => s

def recorded (s : GeneratorState) : StatusOperation → Option (Bytes × Bytes × GeneratorInfo)
  | .setStatus req => (handleSetStatus s req).toOption.map (fun _ => (req.address, generatorInfoStore.getKey req.address, req.info))
  | .updateStatus lastBlock req =>
    if req.enable then (handleUpdateStatus decryptMessageWithPassword lastBlock s req).toOption.map
      (fun _ => (req.generatorAddress, generatorInfoStore.getKey req.generatorAddress, req.info))
    else none
  | .forge situation =>
    (s.generator.forge app {situation with generatorDB := s.generatorDB}).toOption.map (fun forged =>
      (forged.1.header.generatorAddress, prevInfoStore.getKey forged.1.header.generatorAddress, infoOfHeader forged.1.header))

def run (s : GeneratorState) : List StatusOperation → GeneratorState × List (Bytes × Bytes × GeneratorInfo)
  | [] => (s, [])
  | operation :: rest =>
    let later := (s.step decryptMessageWithPassword app operation).run rest
    (later.1, (s.recorded decryptMessageWithPassword app operation).toList ++ later.2)

end

def compared (s : GeneratorState) (address : Bytes) : Except EndpointError (Option GeneratorInfo) :=
  previousInfo s.generator.text (generatorInfoStore.get (Database.new s.generatorDB) address).1

def reported (s : GeneratorState) (address : Bytes) : Except EndpointError (Option GeneratorInfo) :=
  (handleGetStatus s).map (fun statuses => (statuses.find? (fun status => status.address = address)).map
    (fun status => ⟨status.height,status.maxHeightPrevoted,status.maxHeightGenerated⟩))

def nextMaxHeightGenerated (s : GeneratorState) (address : Bytes) : Except ForgeError Nat :=
  (storedInfo s.generator.text (prevInfoStore.get (Database.new s.generatorDB) address).1).map GeneratorInfo.height

end GeneratorState

abbrev Infos := Bytes → Option GeneratorInfo

def Infos.record (infos : Infos) (r : Bytes × Bytes × GeneratorInfo) : Infos := fun key => if key = r.2.1 then some r.2.2 else infos key

structure Sized (info : GeneratorInfo) : Prop where
  height : info.height < 4294967296
  prevoted : info.maxHeightPrevoted < 4294967296
  generated : info.maxHeightGenerated < 4294967296

def Holds (text : Normalizer) : Option Bytes → Option GeneratorInfo → Prop
  | none, none => True
  | some encoded, some info => info.encode text = some encoded ∧ Sized info
  | _, _ => False

def Refines (s : GeneratorState) (infos : Infos) : Prop :=
  ∀ key, generatorDBPrefixGeneratedInfo <+: key → Holds s.generator.text (s.generatorDB.get key) (infos key)

def StatusOperation.Sized : StatusOperation → Prop
  | .setStatus req => Endpoint.Sized req.info
  | .updateStatus _ req => Endpoint.Sized req.info
  | .forge situation => ∀ v, situation.store.getVotes = .ok v → v.maxHeightPrevoted < 4294967296

theorem encodedSome {text} {info : GeneratorInfo} {enc} (ok : info.encode text = some enc) : enc ≠ [] := by
  obtain ⟨a,rest,isA,_,rfl⟩ := Schema.encodeInv ok
  simp only [Kind.write,Writer.writeUInt32,Writer.writeUInt,Writer.field,Option.map_eq_some_iff] at isA
  obtain ⟨key,hit,rfl⟩ := isA
  have first : getKey wireType0 1 = some [8] := by decide
  cases first.symm.trans hit
  simp

section
variable {text : Normalizer} {stored : Option Bytes} {info : Option GeneratorInfo} (holds : Holds text stored info)
include holds

theorem Holds.storedInfo : Generation.storedInfo text stored = .ok (info.getD ⟨0,0,0⟩) := by
  match stored, info, holds with
  | none, none, _ => rfl
  | some encoded, some info, ⟨ok,sized⟩ => exact infoDecodes sized.height sized.prevoted sized.generated ok

theorem Holds.decoded {enc} (isStored : stored = some enc) :
    ∃ i, info = some i ∧ enc ≠ [] ∧ GeneratorInfo.decode text enc = .ok i := by
  match stored, info, holds with
  | some encoded', some i, ⟨ok,sized⟩ =>
    cases isStored
    refine ⟨i,rfl,encodedSome ok,?_⟩
    have read := infoDecodes sized.height sized.prevoted sized.generated ok
    simp only [Generation.storedInfo] at read
    cases dec : GeneratorInfo.decode text enc with
    | error e =>
      rw [dec] at read
      cases read
    | ok i' =>
      rw [dec] at read
      exact congrArg Except.ok (Except.ok.inj read)

theorem Holds.sizedHeight : (info.getD ⟨0,0,0⟩).height < 4294967296 := by
  match stored, info, holds with
  | none, none, _ => decide
  | some encoded, some info, ⟨_,sized⟩ => exact sized.height

theorem Holds.absent (isStored : stored = none) : info = none := by
  match stored, info, holds with
  | none, none, _ => rfl

theorem Holds.previousInfo : Endpoint.previousInfo text stored = .ok info := by
  cases isStored : stored with
  | none => rw [holds.absent isStored]; rfl
  | some enc =>
    obtain ⟨i,rfl,ne,dec⟩ := holds.decoded isStored
    obtain ⟨b,rest,rfl⟩ := exists_cons_of_ne_nil ne
    simp only [Endpoint.previousInfo,dec,orCodecError]
    rfl

end

section
variable {s : GeneratorState} {infos : Infos}

theorem Refines.compared (refines : Refines s infos) (addr : Bytes) :
    s.compared addr = .ok (infos (generatorInfoStore.getKey addr)) := by
  have read := (newShows s.generatorDB).get (generatorInfoStore.getKey addr)
  rw [GeneratorState.compared,View.get,read]
  exact (refines _ ⟨addr,rfl⟩).previousInfo

theorem Refines.nextMaxHeightGenerated (refines : Refines s infos) (addr : Bytes) :
    s.nextMaxHeightGenerated addr = .ok ((infos (prevInfoStore.getKey addr)).getD ⟨0,0,0⟩).height := by
  have read := (newShows s.generatorDB).get (prevInfoStore.getKey addr)
  rw [GeneratorState.nextMaxHeightGenerated,View.get,read,(refines (prevInfoStore.getKey addr) ⟨[0] ++ addr,rfl⟩).storedInfo]
  rfl

theorem listedIff (store : GeneratorDB) : ∃ listed db,
    generatorInfoStore.iterate (Database.new store) [] (-1) false = some (listed,db) ∧
      ∀ key value, (key,value) ∈ listed ↔ store.get (generatorInfoStore.getKey key) = some value := by
  obtain ⟨⟨listed,db⟩,iterated,same⟩ := Option.map_eq_some_iff.mp (View.iterateNew generatorInfoStore store)
  refine ⟨listed,db,iterated,fun key value => ?_⟩
  rw [show listed = _ from same,← memIffGet,mem_map]
  constructor
  · rintro ⟨data,inside,stripped⟩
    obtain ⟨stored,starts⟩ := mem_filter.mp inside
    obtain ⟨rest,own⟩ := isPrefixOf_iff_prefix.mp starts
    rw [View.strip,← own,drop_left] at stripped
    cases stripped
    rw [View.getKey,own]
    exact stored
  · intro stored
    refine ⟨_,mem_filter.mpr ⟨stored, isPrefixOf_iff_prefix.mpr ⟨key,rfl⟩⟩,?_⟩
    rw [View.strip,View.getKey,drop_left]

theorem Refines.reported (refines : Refines s infos) (addr : Bytes) :
    s.reported addr = .ok (infos (generatorInfoStore.getKey addr)) := by
  obtain ⟨listed,db,iterated,iff⟩ := listedIff s.generatorDB
  have stored (e : Bytes × Bytes) (among : e ∈ listed) : ∃ i, infos (generatorInfoStore.getKey e.1) = some i ∧
      GeneratorInfo.decode s.generator.text e.2 = .ok i := by
    obtain ⟨i,isInfo,_,dec⟩ := (refines _ ⟨e.1,rfl⟩).decoded ((iff e.1 e.2).mp among)
    exact ⟨i,isInfo,dec⟩
  have statuses : handleGetStatus s = .ok (listed.map (fun e =>
      statusOf s.generator.enabledKeys e.1 ((infos (generatorInfoStore.getKey e.1)).getD ⟨0,0,0⟩))) := by
    simp only [handleGetStatus,iterated,orFail]
    refine mapMOk (forall₂_map_right_iff.mpr (forall₂_same.mpr (fun e among => ?_)))
    obtain ⟨i,isInfo,dec⟩ := stored e among
    rw [dec,isInfo]
    rfl
  rw [GeneratorState.reported,statuses]
  simp only [Except.map,find?_map]
  refine congrArg Except.ok ?_
  cases hit : listed.find? ((fun status => decide (status.address = addr)) ∘ (fun e =>
      statusOf s.generator.enabledKeys e.1 ((infos (generatorInfoStore.getKey e.1)).getD ⟨0,0,0⟩))) with
  | none =>
    cases held : s.generatorDB.get (generatorInfoStore.getKey addr) with
    | none =>
      rw [(refines (generatorInfoStore.getKey addr) ⟨addr,rfl⟩).absent held]
      rfl
    | some enc =>
      have among := (iff addr enc).mpr held
      exact absurd (find?_eq_none.mp hit _ among) (by simp [statusOf])
  | some e =>
    have own : e.1 = addr := by simpa [statusOf] using find?_some hit
    obtain ⟨i,isInfo,_⟩ := stored e (mem_of_find?_eq_some hit)
    rw [own] at isInfo
    simp only [Option.map_some,own,isInfo,Option.getD_some,statusOf]

section
variable {s' : GeneratorState} (refines : Refines s infos) {addr key enc : Bytes} {info : GeneratorInfo}
  (encodes : info.encode s.generator.text = some enc)
  (sized : Sized info)
include refines

include encodes sized in
theorem Refines.written (own : s'.generatorDB.get key = some enc)
    (others : ∀ key', key' ≠ key → s'.generatorDB.get key' = s.generatorDB.get key') : Refines s' (infos.record (addr,key,info)) := by
  intro key' starts
  by_cases same : key' = key
  · rw [Infos.record,if_pos same,same,own]
    exact ⟨encodes,sized⟩
  · rw [Infos.record,if_neg same,others key' same]
    exact refines key' starts

include encodes sized in
theorem Refines.afterSet (db : s'.generatorDB = s.generatorDB.set key enc) : Refines s' (infos.record (addr,key,info)) :=
  refines.written encodes sized (by rw [db,getSet,if_pos rfl])
    (fun key' other => by rw [db,getSet,if_neg other])

theorem Refines.kept (sameText : s'.generator.text = s.generator.text) (same : s'.generatorDB = s.generatorDB) : Refines s' infos := by
  intro key starts
  rw [sameText,same]
  exact refines key starts

end

theorem setStatusOk {req s'} (ok : handleSetStatus s req = .ok s') :
    ∃ enc, req.info.encode s.generator.text = some enc ∧ s'.generator = s.generator ∧
      s'.generatorDB = s.generatorDB.set (generatorInfoStore.getKey req.address) enc := by
  obtain ⟨enc,encodes,ok⟩ := bindOk ok
  cases ok
  exact ⟨enc,orFailOk encodes,rfl,((newShows s.generatorDB).afterSet _ enc).committed (List.Perm.refl _)⟩

theorem updateStatusOk {decrypt lastBlock req s'} (ok : handleUpdateStatus decrypt lastBlock s req = .ok s') :
    s'.generator.text = s.generator.text ∧ (req.enable = false → s'.generatorDB = s.generatorDB) ∧
      (req.enable = true → ∃ enc, req.info.encode s.generator.text = some enc ∧
        s'.generatorDB = s.generatorDB.set (generatorInfoStore.getKey req.generatorAddress) enc) := by
  obtain ⟨encodedKeys,_,ok⟩ := bindOk ok
  obtain ⟨plainKeys,_,ok⟩ := bindOk ok
  split at ok
  · rename_i disabled
    cases ok
    exact ⟨rfl,fun _ => rfl,fun enabled => by rw [enabled] at disabled; cases disabled⟩
  · rename_i enabled
    split at ok
    · cases ok
    obtain ⟨store,verified,ok⟩ := bindOk ok
    cases ok
    refine ⟨rfl,fun disabled => absurd disabled enabled,fun _ => ?_⟩
    obtain ⟨prev,_,verified⟩ := bindOk verified
    obtain ⟨_,_,verified⟩ := bindOk verified
    obtain ⟨enc,encodes,verified⟩ := bindOk verified
    cases verified
    exact ⟨enc,orFailOk encodes,(((newShows s.generatorDB).afterGet _).afterSet _ enc).committed (List.Perm.refl _)⟩

theorem forgeOk {σ : Type} {app : Labi.App σ} {situation block db} (refines : Refines s infos)
    (sized : (StatusOperation.forge situation).Sized)
    (ok : s.generator.forge app {situation with generatorDB := s.generatorDB} = .ok (block,db)) :
    .ok block.header.maxHeightGenerated = s.nextMaxHeightGenerated block.header.generatorAddress ∧
      Refines {s with generatorDB := db}
        (infos.record (block.header.generatorAddress,prevInfoStore.getKey block.header.generatorAddress,
          infoOfHeader block.header)) := by
  obtain ⟨⟨t,gen⟩,enc,encodes,own,others⟩ := generatesOk ok
  obtain ⟨v,info,produced⟩ := gen.produced
  have holds := refines (prevInfoStore.getKey block.header.generatorAddress) ⟨[0] ++ block.header.generatorAddress,rfl⟩
  have stored := produced.stored
  rw [show ({situation with generatorDB := s.generatorDB} : Situation).generatorDB = s.generatorDB from rfl,holds.storedInfo] at stored
  constructor
  · rw [refines.nextMaxHeightGenerated,produced.generated,Except.ok.inj stored]
  refine refines.written encodes ⟨?_,?_,?_⟩ own others
  · show block.header.height < _
    rw [produced.height]
    exact u32Lt _
  · show block.header.maxHeightPrevoted < _
    rw [produced.prevoted]
    exact sized v produced.votes
  · show block.header.maxHeightGenerated < _
    rw [produced.generated,← Except.ok.inj stored]
    exact holds.sizedHeight

variable {σ : Type} {decrypt : Bytes → String → Option Bytes} {app : Labi.App σ}

theorem stepRefines (refines : Refines s infos) {op} (sized : op.Sized) :
    Refines (s.step decrypt app op) ((s.recorded decrypt app op).toList.foldl Infos.record infos) := by
  cases op with
  | setStatus req =>
    simp only [GeneratorState.step,GeneratorState.recorded]
    cases res : handleSetStatus s req with
    | error e => exact refines
    | ok s' =>
      obtain ⟨enc,encodes,same,db⟩ := setStatusOk res
      exact refines.afterSet encodes sized db
  | updateStatus lastBlock req =>
    simp only [GeneratorState.step,GeneratorState.recorded]
    cases res : handleUpdateStatus decrypt lastBlock s req with
    | error e =>
      split <;> exact refines
    | ok s' =>
      obtain ⟨sameText,disabled,enabled⟩ := updateStatusOk res
      split <;> rename_i enable
      · obtain ⟨enc,encodes,db⟩ := enabled enable
        exact refines.afterSet encodes sized db
      · exact refines.kept sameText (disabled (Bool.eq_false_iff.mpr enable))
  | forge situation =>
    simp only [GeneratorState.step,GeneratorState.recorded]
    cases res : s.generator.forge app {situation with generatorDB := s.generatorDB} with
    | error e => exact refines
    | ok forged => exact (forgeOk refines sized res).2

theorem runRefines (refines : Refines s infos) {ops} (sized : ∀ op ∈ ops, op.Sized) :
    Refines (s.run decrypt app ops).1 ((s.run decrypt app ops).2.foldl Infos.record infos) := by
  induction ops generalizing s infos with
  | nil => exact refines
  | cons op rest ih =>
    rw [GeneratorState.run,foldl_append]
    exact ih (stepRefines refines (sized op (.head _))) (fun later among => sized later (.tail _ among))

end

def latestOf (records : List (Bytes × Bytes × GeneratorInfo)) (address : Bytes) : Option GeneratorInfo :=
  (records.filter (fun r => r.1 = address)).getLast?.map (fun r => r.2.2)

def latestAt (records : List (Bytes × Bytes × GeneratorInfo)) (infos : Infos) (key : Bytes) : Option GeneratorInfo :=
  ((records.filter (fun r => r.2.1 = key)).getLast?.map (fun r => r.2.2)).or (infos key)

theorem latestAtFold (records : List (Bytes × Bytes × GeneratorInfo)) (infos : Infos) (key : Bytes) :
    records.foldl Infos.record infos key = latestAt records infos key := by
  induction records using reverseRecOn with
  | nil => rfl
  | append_singleton records r ih =>
    rw [foldl_append,foldl_cons,foldl_nil,Infos.record,ih]
    unfold latestAt
    by_cases own : key = r.2.1
    · simp [own]
    · simp [own,Ne.symm own]

def SingleRegister (s : GeneratorState) (address : Bytes) (info : Option GeneratorInfo) : Prop :=
  s.compared address = .ok info ∧ s.reported address = .ok info ∧
    s.nextMaxHeightGenerated address = .ok (info.getD ⟨0,0,0⟩).height

theorem singleRegisterIff {σ : Type} (decrypt : Bytes → String → Option Bytes) (app : Labi.App σ) (s : GeneratorState) (infos : Infos)
    (refines : Refines s infos) (operations : List StatusOperation) (sized : ∀ operation ∈ operations, operation.Sized)
    (address : Bytes) :
    SingleRegister (s.run decrypt app operations).1 address (latestOf (s.run decrypt app operations).2 address) ↔
      latestAt (s.run decrypt app operations).2 infos (generatorInfoStore.getKey address) =
          latestOf (s.run decrypt app operations).2 address ∧
        ((latestAt (s.run decrypt app operations).2 infos (prevInfoStore.getKey address)).getD ⟨0, 0, 0⟩).height =
          ((latestOf (s.run decrypt app operations).2 address).getD ⟨0, 0, 0⟩).height := by
  have after := @runRefines s infos σ decrypt app refines operations sized
  rw [SingleRegister,after.compared,after.reported,after.nextMaxHeightGenerated,latestAtFold,latestAtFold]
  simp only [Except.ok.injEq]
  exact ⟨fun ⟨own,_,height⟩ => ⟨own,height⟩,fun ⟨own,height⟩ => ⟨own,own,height⟩⟩

def sampleState : GeneratorState := ⟨sampleForger,OrderedMap.empty⟩

def sampleRun (operations : List StatusOperation) : GeneratorState × List (Bytes × Bytes × GeneratorInfo) :=
  sampleState.run (fun _ _ => none) sampleApp operations

def sampleSame : List StatusOperation := [.forge (sampleAt sampleLong OrderedMap.empty 250),.setStatus ⟨[2],7,0,0⟩]

theorem sampleSameSized : ∀ op ∈ sampleSame, op.Sized := by
  have prevoted : (sampleReached sampleLong).store.getVotes.toOption.map (·.maxHeightPrevoted) = some 0 := by
    decide +kernel
  refine forall_mem_cons.mpr ⟨fun v votes => ?_,forall_mem_singleton.mpr ⟨by decide,by decide,by decide⟩⟩
  rw [show (sampleReached sampleLong).store.getVotes = .ok v from votes] at prevoted
  have absent : v.maxHeightPrevoted = 0 := Option.some.inj prevoted
  omega

theorem singleRegisterSame : SingleRegister (sampleRun sampleSame).1 [2] (latestOf (sampleRun sampleSame).2 [2]) :=
  (singleRegisterIff (fun _ _ => none) sampleApp sampleState (fun _ => none) (fun _ _ => trivial) sampleSame sampleSameSized [2]).mpr
    ⟨by decide +kernel,by decide +kernel⟩

theorem setHeightNotAcknowledged : let address : Bytes := replicate 20 2
    (sampleRun [.setStatus ⟨address,10,9,8⟩]).1.compared address = .ok (some ⟨10,8,9⟩) ∧
    (sampleRun [.setStatus ⟨address,10,9,8⟩]).1.reported address = .ok (some ⟨10,8,9⟩) ∧
    (sampleRun [.setStatus ⟨address,10,9,8⟩]).1.nextMaxHeightGenerated address = .ok 0 ∧
    (sampleForged sampleLong (sampleRun [.setStatus ⟨[2],10,9,8⟩]).1.generatorDB 250).1.header.generatorAddress = [2] ∧
    (sampleForged sampleLong (sampleRun [.setStatus ⟨[2],10,9,8⟩]).1.generatorDB 250).1.header.maxHeightGenerated = 0 := by
  refine ⟨by decide +kernel,by decide +kernel,by decide +kernel,by decide +kernel,by decide +kernel⟩

end LiskEngine.Endpoint
