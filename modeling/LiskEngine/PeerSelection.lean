import LiskEngine.OrderedMap
import LiskEngine.Bytes
import Mathlib.Data.List.Induction

/-! The peer to sync with. The frequencies of the last block IDs are kept in a map whose
iteration order is not fixed, and the loop over it never raises its maximum, so it ends
with the ID that is visited last. -/
namespace LiskEngine.Sync
open List OrderedMap

structure NodeInfo where
  height : Nat
  maxHeightPrevoted : Nat
  blockVersion : Nat
  lastBlockID : Bytes
  peerID : String
  deriving DecidableEq, Repr

inductive PeerError where
  | noPeer
  | runtimePanic
  deriving DecidableEq, Repr

structure Iteration where
  visit : OrderedMap Bytes Nat → List (Bytes × Nat)
  perm : ∀ m, (visit m).Perm m.entries

def largestLoop (value : NodeInfo → Nat) : List NodeInfo → Nat → List NodeInfo → List NodeInfo
  | [], _, result => result
  | val :: rest, maxValue, result =>
    if value val > maxValue then largestLoop value rest (value val) [val]
    else if value val = maxValue then largestLoop value rest maxValue (result ++ [val])
    else largestLoop value rest maxValue result

def getLargest (value : NodeInfo → Nat) : List NodeInfo → List NodeInfo
  | [] => []
  | first :: rest => largestLoop value (first :: rest) (value first) []

def getLargestMaxHeightPrevotedNodeInfo : List NodeInfo → List NodeInfo := getLargest (·.maxHeightPrevoted)

def getLargestHeightNodeInfo : List NodeInfo → List NodeInfo := getLargest (·.height)

def frequency (info : List NodeInfo) : OrderedMap Bytes Nat :=
  info.foldl (fun frequency val =>
    match frequency.get val.lastBlockID with
    | some count => frequency.set val.lastBlockID (count + 1)
    | none => frequency.set val.lastBlockID 1) OrderedMap.empty

def visitedBlockID (entries : List (Bytes × Nat)) : Option Bytes :=
  entries.foldl (fun blockID entry => if entry.2 > 0 then some entry.1 else blockID) none

def getMostFrequesntBlockIDNodeInfo (order : Iteration) (info : List NodeInfo) : List NodeInfo :=
  match visitedBlockID (order.visit (frequency info)) with
  | none => []
  | some blockID => info.filter (fun val => val.lastBlockID = blockID)

def highestGroup (nodeInfos : List NodeInfo) : List NodeInfo :=
  getLargestHeightNodeInfo (getLargestMaxHeightPrevotedNodeInfo nodeInfos)

def getBestNodeInfo (order : Iteration) (random : Nat) (nodeInfos : List NodeInfo) : Except PeerError NodeInfo :=
  if nodeInfos.length = 0 then .error .noPeer
  else
    let selectedInfo := getMostFrequesntBlockIDNodeInfo order (highestGroup nodeInfos)
    match selectedInfo[random % selectedInfo.length]? with
    | some nodeInfo => .ok nodeInfo
    | none => .error .runtimePanic

section
variable {value : NodeInfo → Nat}

theorem largestLoopFilter (info : List NodeInfo) {maxValue seen res} (largest : ∀ val ∈ seen, value val ≤ maxValue)
    (kept : res = seen.filter (fun val => value val = maxValue)) :
    ∃ top, maxValue ≤ top ∧ (∀ val ∈ seen ++ info, value val ≤ top) ∧ (top = maxValue ∨ ∃ val ∈ info, value val = top) ∧
      largestLoop value info maxValue res = (seen ++ info).filter (fun val => value val = top) := by
  induction info generalizing maxValue seen res with
  | nil => exact ⟨maxValue,le_refl _,by simpa using largest,.inl rfl,by simpa [largestLoop] using kept⟩
  | cons val rest ih =>
    rw [largestLoop,append_cons]
    split
    · rename_i more
      have absent : seen.filter (fun other => value other = value val) = [] := by
        refine filter_eq_nil_iff.mpr fun other mem => ?_
        have := largest other mem
        simp only [decide_eq_true_eq]
        omega
      obtain ⟨top,least,all,attained,same⟩ := @ih (value val) (seen ++ [val]) [val]
        (forall_mem_append.mpr ⟨fun other old => (largest other old).trans more.le,forall_mem_singleton.mpr le_rfl⟩)
        (by simp [absent])
      refine ⟨top,by omega,all,.inr ?_,same⟩
      rcases attained with rfl | ⟨other,mem,own⟩
      · exact ⟨val,mem_cons_self,rfl⟩
      · exact ⟨other,mem_cons_of_mem _ mem,own⟩
    · rename_i notMore
      have largest' : ∀ other ∈ seen ++ [val], value other ≤ maxValue :=
        forall_mem_append.mpr ⟨largest,forall_mem_singleton.mpr (by omega)⟩
      split
      · rename_i own
        obtain ⟨top,least,all,attained,same⟩ := @ih maxValue (seen ++ [val]) (res ++ [val]) largest' (by simp [kept,own])
        refine ⟨top,least,all,attained.imp_right ?_,same⟩
        exact fun ⟨other,mem,own⟩ => ⟨other,mem_cons_of_mem _ mem,own⟩
      · rename_i other
        obtain ⟨top,least,all,attained,same⟩ := @ih maxValue (seen ++ [val]) res largest' (by simp [kept,other])
        refine ⟨top,least,all,attained.imp_right ?_,same⟩
        exact fun ⟨other,mem,own⟩ => ⟨other,mem_cons_of_mem _ mem,own⟩

theorem largestFilter {info} (ne : info ≠ []) : ∃ top, (∀ val ∈ info, value val ≤ top) ∧ (∃ val ∈ info, value val = top) ∧
      getLargest value info = info.filter (fun val => value val = top) := by
  cases info with
  | nil => exact absurd rfl ne
  | cons first rest =>
    obtain ⟨top,least,all,attained,same⟩ := @largestLoopFilter value (first::rest) (value first) [] [] (by simp) rfl
    refine ⟨top,all,?_,same⟩
    rcases attained with rfl | hit
    · exact ⟨first,mem_cons_self,rfl⟩
    · exact hit

end

structure Highest (nodeInfos : List NodeInfo) (node : NodeInfo) : Prop where
  member : node ∈ nodeInfos
  prevoted : ∀ other ∈ nodeInfos, other.maxHeightPrevoted ≤ node.maxHeightPrevoted
  height : ∀ other ∈ nodeInfos, other.maxHeightPrevoted = node.maxHeightPrevoted → other.height ≤ node.height

theorem highestGroupSpec (ne : nodeInfos ≠ []) :
    highestGroup nodeInfos ≠ [] ∧ ∀ node, node ∈ highestGroup nodeInfos ↔ Highest nodeInfos node := by
  obtain ⟨prevoted,most,⟨first,mem,own⟩,group⟩ := @largestFilter (·.maxHeightPrevoted) nodeInfos ne
  have inGroup : ∀ node, node ∈ getLargestMaxHeightPrevotedNodeInfo nodeInfos ↔ node ∈ nodeInfos ∧ node.maxHeightPrevoted = prevoted := by
    intro node
    rw [getLargestMaxHeightPrevotedNodeInfo,group,mem_filter,decide_eq_true_eq]
  obtain ⟨height,highest,⟨second,mem',own'⟩,group'⟩ := @largestFilter (·.height) (getLargestMaxHeightPrevotedNodeInfo nodeInfos)
    (ne_nil_of_mem ((inGroup first).mpr ⟨mem,own⟩))
  have inside : ∀ node, node ∈ highestGroup nodeInfos ↔ (node ∈ nodeInfos ∧ node.maxHeightPrevoted = prevoted) ∧ node.height = height := by
    intro node
    rw [highestGroup,getLargestHeightNodeInfo,group',mem_filter,inGroup,decide_eq_true_eq]
  refine ⟨ne_nil_of_mem ((inside second).mpr ⟨(inGroup second).mp mem',own'⟩),fun node => ?_⟩
  rw [inside]
  constructor
  · rintro ⟨⟨listed,isPrevoted⟩,isHeight⟩
    refine ⟨listed,fun other among => isPrevoted ▸ most other among,fun other among same => ?_⟩
    exact isHeight ▸ highest other ((inGroup other).mpr ⟨among,same.trans isPrevoted⟩)
  · intro best
    have isPrevoted := le_antisymm (most node best.member) (own ▸ best.prevoted first mem)
    obtain ⟨among,samePrevoted⟩ := (inGroup second).mp mem'
    refine ⟨⟨best.member,isPrevoted⟩,le_antisymm (highest node ((inGroup node).mpr ⟨best.member,isPrevoted⟩)) ?_⟩
    exact own' ▸ best.height second among (samePrevoted.trans isPrevoted.symm)

def occurrences (info : List NodeInfo) (id : Bytes) : Nat := (info.map (·.lastBlockID)).count id

theorem frequencyGet (info : List NodeInfo) (id : Bytes) :
    (frequency info).get id = if occurrences info id = 0 then none else some (occurrences info id) := by
  induction info using reverseRecOn generalizing id with
  | nil => rfl
  | append_singleton info val ih =>
    have counted : occurrences (info ++ [val]) id = occurrences info id+if val.lastBlockID = id then 1 else 0 := by
      simp [occurrences,count_append,count_singleton]
    have more : frequency (info ++ [val]) = (frequency info).set val.lastBlockID (occurrences info val.lastBlockID+1) := by
      have step : frequency (info ++ [val]) = match (frequency info).get val.lastBlockID with
          | some count => (frequency info).set val.lastBlockID (count+1)
          | none => (frequency info).set val.lastBlockID 1 := by
        rw [frequency,foldl_append]
        rfl
      rw [step,ih]
      split_ifs with fresh
      · rw [fresh]
      · rfl
    rw [more,getSet,counted,ih]
    by_cases own : id = val.lastBlockID
    · simp [own]
    · simp [own,Ne.symm own]

theorem frequencyEntry : entry ∈ (frequency info).entries ↔ 0 < entry.2 ∧ occurrences info entry.1 = entry.2 := by
  rw [show entry = (entry.1,entry.2) from rfl,memIffGet,frequencyGet]
  split_ifs with absent
  · simp only [false_iff]
    omega
  · simp only [Option.some.injEq]
    omega

theorem visitedLast {es} (counted : ∀ entry ∈ es, 0 < entry.2) : visitedBlockID es = es.getLast?.map Prod.fst := by
  induction es using reverseRecOn with
  | nil => rfl
  | append_singleton es entry ih =>
    rw [visitedBlockID,foldl_append,getLast?_concat]
    exact if_pos (counted entry (by simp))

theorem mostFrequentFilter (order : Iteration) (ne : info ≠ []) :
    ∃ last, (order.visit (frequency info)).getLast? = some last ∧ 0 < last.2 ∧ occurrences info last.1 = last.2 ∧
      getMostFrequesntBlockIDNodeInfo order info = info.filter (·.lastBlockID = last.1) := by
  have listed : ∀ entry, entry ∈ order.visit (frequency info) ↔ 0 < entry.2 ∧ occurrences info entry.1 = entry.2 :=
    fun entry => (order.perm _).mem_iff.trans frequencyEntry
  obtain ⟨first,mem⟩ := exists_mem_of_ne_nil info ne
  have counted : 0 < occurrences info first.lastBlockID := count_pos_iff.mpr (mem_map_of_mem mem)
  have visited := ne_nil_of_mem ((listed (_,_)).mpr ⟨counted,rfl⟩)
  obtain ⟨last,isLast⟩ : ∃ last, (order.visit (frequency info)).getLast? = some last := ⟨_,getLast?_eq_some_getLast visited⟩
  obtain ⟨pos,own⟩ := (listed last).mp (mem_of_getLast? isLast)
  refine ⟨last,isLast,pos,own,?_⟩
  rw [getMostFrequesntBlockIDNodeInfo,visitedLast (fun entry among => ((listed entry).mp among).1),isLast]
  rfl

theorem bestNodeInfoIff (order : Iteration) (random : Nat) {nodeInfos : List NodeInfo} (nonempty : nodeInfos ≠ []) :
    ∃ node, getBestNodeInfo order random nodeInfos = .ok node ∧ Highest nodeInfos node ∧
      ((∀ id, occurrences (highestGroup nodeInfos) id ≤ occurrences (highestGroup nodeInfos) node.lastBlockID) ↔
        ∃ last, (order.visit (frequency (highestGroup nodeInfos))).getLast? = some last ∧
          ∀ entry ∈ (frequency (highestGroup nodeInfos)).entries, entry.2 ≤ last.2) := by
  obtain ⟨groupNonempty,inside⟩ := highestGroupSpec nonempty
  obtain ⟨last,isLast,positive,own,selected⟩ := mostFrequentFilter order groupNonempty
  have drawn : 0 < (getMostFrequesntBlockIDNodeInfo order (highestGroup nodeInfos)).length := by
    obtain ⟨val,member,same⟩ := mem_map.mp (count_pos_iff.mp (own.symm ▸ positive : 0 < occurrences (highestGroup nodeInfos) last.1))
    rw [selected]
    exact length_pos_of_mem (mem_filter.mpr ⟨member,decide_eq_true same⟩)
  obtain ⟨node,index⟩ : ∃ node, (getMostFrequesntBlockIDNodeInfo order (highestGroup nodeInfos))[random %
      (getMostFrequesntBlockIDNodeInfo order (highestGroup nodeInfos)).length]? = some node :=
    ⟨_,getElem?_eq_getElem (Nat.mod_lt random drawn)⟩
  have member := mem_of_getElem? index
  rw [selected,mem_filter,decide_eq_true_eq] at member
  refine ⟨node,?_,(inside node).mp member.1,?_⟩
  · rw [getBestNodeInfo,if_neg (by simpa using nonempty)]
    simp only [index]
  rw [member.2,own]
  constructor
  · intro most
    refine ⟨last,isLast,fun entry among => ?_⟩
    exact (frequencyEntry.mp among).2 ▸ most entry.1
  · rintro ⟨last',isLast',most⟩ id
    cases isLast.symm.trans isLast'
    rcases Nat.eq_zero_or_pos (occurrences (highestGroup nodeInfos) id) with zero | positive
    · omega
    · exact most (id, _) (frequencyEntry.mpr ⟨positive,rfl⟩)

def ascendingIteration : Iteration := ⟨fun m => m.entries,fun _ => List.Perm.refl _⟩

def sampleInfo (id : UInt8) : NodeInfo := ⟨5,4,2,[id],""⟩

theorem bestNodeInfoSample : ∃ node, getBestNodeInfo ascendingIteration 1 [sampleInfo 2, sampleInfo 1, sampleInfo 2] = .ok node ∧
    Highest [sampleInfo 2, sampleInfo 1, sampleInfo 2] node ∧
    ∀ id, occurrences (highestGroup [sampleInfo 2, sampleInfo 1, sampleInfo 2]) id ≤
      occurrences (highestGroup [sampleInfo 2, sampleInfo 1, sampleInfo 2]) node.lastBlockID := by
  obtain ⟨node,chosen,highest,most⟩ := bestNodeInfoIff ascendingIteration 1 (cons_ne_nil (sampleInfo 2) [sampleInfo 1,sampleInfo 2])
  exact ⟨node,chosen,highest,most.mpr ⟨([2], 2),by decide,by decide⟩⟩

theorem rareBlockIDChosen : getBestNodeInfo ascendingIteration 0 [sampleInfo 1, sampleInfo 1, sampleInfo 2] = .ok (sampleInfo 2) ∧
    occurrences (highestGroup [sampleInfo 1, sampleInfo 1, sampleInfo 2]) [2] <
      occurrences (highestGroup [sampleInfo 1, sampleInfo 1, sampleInfo 2]) [1] := by
  decide

end LiskEngine.Sync
