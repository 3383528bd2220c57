import LiskEngine.SmtResolve
import LiskEngine.SmtRoundTrip

/-! The root of a trie and the height of its subtrees. -/
namespace LiskEngine.Smt
open List OrderedMap

theorem freeAmong (free : CollisionFree sha strings) (fewer : strings' ⊆ strings) : CollisionFree sha strings' :=
  fun a inA b inB => free a (fewer inA) b (fewer inB)

theorem hashedAmong (fewer : trees' ⊆ trees) : hashedBy sha trees' ⊆ hashedBy sha trees := by
  intro a mem
  rcases mem_cons.mp mem with rfl | later
  · exact .head _
  · obtain ⟨t,listed,inside⟩ := mem_flatMap.mp later
    exact .tail _ (mem_flatMap.mpr ⟨t,fewer listed,inside⟩)

def Trie.setSubtreeHeight (t : Trie) (subtreeHeight : Nat) : Trie := { t with subtreeHeight := subtreeHeight }

theorem mapsAlongPrefix (before : earlier <+: calls) : mapsAlong m earlier ⊆ mapsAlong m calls := by
  obtain ⟨later,rfl⟩ := before
  induction earlier generalizing m with
  | nil =>
    intro m' mem
    cases mem_singleton.mp mem
    cases later <;> exact .head _
  | cons call rest ih => exact cons_subset_cons m ih

theorem heightsAgree (sha : Bytes → Bytes) (keyLength : Nat) (calls : List (List KeyValue)) (positive : 1 ≤ keyLength)
    (size : ∀ data, (sha data).length = 32) (batches : ∀ call ∈ calls, Batch keyLength 32 call)
    (free : CollisionFree sha (hashedBy sha ((mapsAlong OrderedMap.empty calls).map (mapTree keyLength))))
    (clear : LowClear (fun key => ∃ call ∈ calls, ∃ kv ∈ call, kv.1 = key)) (earlier) (before : earlier <+: calls) :
    ∃ s t s' t', runUpdates sha idealStore.toDB OrderedMap.empty ((newTrie sha [] keyLength).setSubtreeHeight 8) earlier = .ok (s, t) ∧
      runUpdates sha idealStore.toDB OrderedMap.empty ((newTrie sha [] keyLength).setSubtreeHeight 4) earlier = .ok (s', t') ∧
      t.root = t'.root := by
  have batches' : ∀ call ∈ earlier, Batch keyLength 32 call := fun call member => batches call (before.subset member)
  have free' := freeAmong free (hashedAmong (map_subset (mapTree keyLength) (mapsAlongPrefix before)))
  obtain ⟨s,run,_⟩ := runFromEmpty positive size batches' free' idealCommits empty
  obtain ⟨s',run',_⟩ := runFromHeight positive size batches' free' (shapeFour keyLength clear)
    (fun call member kv inside => ⟨(batches' call member).keys kv inside,call,before.subset member,kv,inside,rfl⟩)
    idealCommits empty
  rw [runCommittedId] at run run'
  exact ⟨s,_,s',_,run,run',rfl⟩

def apartCalls : List (List KeyValue) :=
  [[([16, 0], sampleValue 1),([32, 5], sampleValue 2)],[([16, 128], sampleValue 3),([32, 5], [])]]

theorem heightsAgreeSample : ∃ s t s' t',
    runUpdates sampleSha idealStore.toDB OrderedMap.empty ((newTrie sampleSha [] 2).setSubtreeHeight 8) apartCalls = .ok (s, t) ∧
    runUpdates sampleSha idealStore.toDB OrderedMap.empty ((newTrie sampleSha [] 2).setSubtreeHeight 4) apartCalls = .ok (s', t') ∧
    t.root = t'.root := by
  have apart : ∀ a ∈ apartCalls.flatten, ∀ c ∈ apartCalls.flatten, a.1 ≠ c.1 → ∃ d < 9, keyBit a.1 d ≠ keyBit c.1 d ∧
      ∀ k < 1, 8 * k + 4 ≤ d → ∀ i < 8 * k + 8, 8 * k + 4 ≤ i → keyBit a.1 i = false := by
    decide +kernel
  refine heightsAgree sampleSha 2 apartCalls (by decide) sampleShaLength ?_ (by decide +kernel) ?_ apartCalls (prefix_refl _)
  · intro call member
    simp only [apartCalls,mem_cons,not_mem_nil,or_false] at member
    rcases member with rfl | rfl <;> exact ⟨by simp,by simp [sampleValue],by decide⟩
  rintro a c ⟨call,listed,kv,member,rfl⟩ ⟨call',listed',kv',member',rfl⟩ distinct k agree i low high
  obtain ⟨d,short,differs,clear⟩ := apart kv (mem_flatten_of_mem listed member) kv' (mem_flatten_of_mem listed' member')
    distinct
  have after : 8 * k + 4 ≤ d := Nat.le_of_not_lt (fun within => differs (agree d within))
  exact clear k (by omega) after i high low

def sharedUpper : List (List KeyValue) := [[([1, 0], sampleValue 1),([2, 128], sampleValue 2)]]

theorem heightFourDiffers :
    (runUpdates sampleSha idealStore.toDB OrderedMap.empty ((newTrie sampleSha [] 2).setSubtreeHeight 8) sharedUpper).map
        (fun run => run.2.root) = .ok (referenceRoot sampleSha 16 0 (resultMap OrderedMap.empty sharedUpper).entries) ∧
    ((runUpdates sampleSha idealStore.toDB OrderedMap.empty ((newTrie sampleSha [] 2).setSubtreeHeight 4) sharedUpper).map
        (fun run => run.2.root)).isOk ∧
    (runUpdates sampleSha idealStore.toDB OrderedMap.empty ((newTrie sampleSha [] 2).setSubtreeHeight 4) sharedUpper).map
        (fun run => run.2.root) ≠ .ok (referenceRoot sampleSha 16 0 (resultMap OrderedMap.empty sharedUpper).entries) := by
  decide +kernel

end LiskEngine.Smt
