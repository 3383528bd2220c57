import LiskEngine.SmtComplete

/-! Proofs of a trie and their verification. Any updates lead to the tree of a map,
the trie answers every query from it, and the verification of the answers succeeds
exactly if it leaves out no query that it would have needed. -/
namespace LiskEngine.Smt
open List OrderedMap SparseTree QueryProof

variable {sha : Bytes → Bytes}

theorem packByteBits (length : bits.length = 8) : (List.range 8).map (bitOf (packByte bits)) = bits := by
  have all : ∀ a b c d e f g h : Bool, (range 8).map (bitOf (packByte [a,b,c,d,e,f,g,h])) = [a,b,c,d,e,f,g,h] := by decide +kernel
  match bits, length with
  | [a,b,c,d,e,f,g,h], _ => exact all a b c d e f g h

theorem toBoolsPacked (length : target.length = 8*n) :
    toBools ((List.range n).map (fun k => packByte ((target.drop (8*k)).take 8))) = target := by
  induction n generalizing target with
  | zero =>
    rw [mul_zero,length_eq_zero_iff] at length
    rw [length]
    rfl
  | succ n ih =>
    have later := @ih (target.drop 8) (by rw [length_drop]; omega)
    rw [range_succ_eq_map,map_cons,map_map,toBoolsCons]
    have same : ((fun k => packByte ((target.drop (8*k)).take 8)) ∘ Nat.succ) =
        (fun k => packByte (((target.drop 8).drop (8*k)).take 8)) := by
      funext k
      rw [Function.comp_apply,drop_drop]
      congr 4
      omega
    rw [same,later,packByteBits (by simp only [mul_zero,drop_zero,length_take]; omega)]
    exact take_append_drop 8 target

theorem toBoolsFromBools (bits : List Bool) : toBools (fromBools bits) = List.replicate ((8-bits.length % 8) % 8) false ++ bits := by
  refine toBoolsPacked ?_
  rw [length_append,length_replicate]
  omega

theorem stripPacked (first : bits.head? ≠ some false) : stripPrefixFalse (toBools (fromBools bits)) = bits := by
  rw [toBoolsFromBools,stripPrefixFalse,dropWhile_append_of_pos (by simp)]
  match bits, first with
  | [], _ | true::rest, _ => rfl
  | false::rest, first => exact absurd rfl first

theorem packedHead (first : bits.head? ≠ some false) : (fromBools bits).head? ≠ some 0 := by
  intro zero
  match bits, first with
  | [], _ => simp [fromBools] at zero
  | false::rest, first => exact absurd rfl first
  | true::rest, _ =>
    have packed := toBoolsFromBools (true::rest)
    obtain ⟨more,shape⟩ := head?_eq_some_iff.mp zero
    have place : (8-(true::rest).length % 8) % 8 < 8 := Nat.mod_lt _ (by decide)
    have set := congrArg (fun bits => bits[(8-(true::rest).length % 8) % 8]?) packed
    have absent : ∀ i, i < 8 → bitOf 0 i = false := by decide
    simp only [shape,toBoolsCons] at set
    rw [getElem?_append_left (by simpa using place),getElem?_append_right (by simp),getElem?_map,
      getElem?_range place,Option.map_some,absent _ place] at set
    simp at set

theorem takeOnPath {key path} (along : SparseTree.OnPath keyBit d path key) (fit : d+path.length ≤ 8*key.length) :
    ((toBools key).drop d).take path.length = path := by
  induction path generalizing d with
  | nil => rfl
  | cons b path ih =>
    rw [length_cons] at fit
    have bit := toBoolsBit (show d < 8*key.length by omega)
    rw [getElem?_eq_some_iff] at bit
    obtain ⟨inside,bit⟩ := bit
    rw [drop_eq_getElem_cons inside,length_cons,take_succ_cons,bit,along.1,ih along.2 (by omega)]

theorem commonPrefixLength (same : a.take n = b.take n) (left : n ≤ a.length) (right : n ≤ b.length) :
    n ≤ (commonPrefix a b).length := by
  induction n generalizing a b with
  | zero => exact Nat.zero_le _
  | succ n ih =>
    cases a with
    | nil => simp at left
    | cons x xs =>
      cases b with
      | nil => simp at right
      | cons y ys =>
        simp only [take_succ_cons,cons.injEq] at same
        rw [commonPrefix,if_pos same.1,length_cons]
        exact Nat.succ_le_succ (ih same.2 (Nat.le_of_succ_le_succ left) (Nat.le_of_succ_le_succ right))

section
variable (sha : Bytes → Bytes) (keyLength : Nat) (m : KeyValueMap)

def queryPath (key : Bytes) : List Bool := SparseTree.way keyBit key (8 * keyLength) 0 (mapTree keyLength m)

def queryTip (key : Bytes) : Tree := SparseTree.reach keyBit key (8 * keyLength) 0 (mapTree keyLength m)

def queryAnswer (key : Bytes) : QueryProof := answer sha key (8 * keyLength) 0 (mapTree keyLength m)

end

section
variable {len : Nat} {m : KeyValueMap}

theorem queryFound (key : Bytes) : (mapTree len m).subtreeAt (queryPath len m key) = some (queryTip len m key) :=
  wayReach key _ _ _

theorem queryTipEnds (key : Bytes) : ∀ l r, queryTip len m key ≠ .node l r := reachTip (buildDepth _ _ _)

theorem answerHashes (key : Bytes) : (queryAnswer sha len m key).binaryBitmap =
      (pathHashes sha (mapTree len m) (queryPath len m key)).binaryBitmap ∧ (queryAnswer sha len m key).siblingHashes =
      (pathHashes sha (mapTree len m) (queryPath len m key)).siblingHashes := by
  rw [queryAnswer,answer,← queryTip]
  cases queryTip len m key <;> exact ⟨rfl,rfl⟩

theorem besideTip {path} (ends : path = p ++ [b]) (hit : (mapTree len m).subtreeAt path = some x)
    (tip : ∀ l r, x ≠ .node l r) : besideEnd (mapTree len m) path ≠ .empty := by
  subst ends
  obtain ⟨l,r,parent,isChild,other⟩ := besideParent hit
  have normal := @buildNormal _ _ keyBit (8*len) 0 m.entries l r (subtreeAtMember parent)
  rw [other]
  intro isEmpty
  cases b with
  | false | true =>
    subst isEmpty isChild
    cases x with
    | node a c => exact tip a c rfl
    | empty | leaf k v => cases normal

theorem answerFirst (key : Bytes) : (queryAnswer sha len m key).binaryBitmap.head? ≠ some false := by
  rw [(answerHashes key).1]
  have hit := @queryFound len m key
  rcases eq_nil_or_concat' (queryPath len m key) with none | ⟨p,b,ends⟩
  · rw [none]
    simp [pathHashes,beside]
  have filled := besideTip ends hit (queryTipEnds key)
  rw [ends] at hit filled ⊢
  rw [(pathHashesUp hit).1]
  simp [filled]

variable (sized : SizedMap len 32 m)
include sized

theorem mapApart : SparseTree.Apart keyBit (8*len) 0 m.entries :=
  apartOf (keySeparated len) (fun e mem => (sized e mem).1) (mapDistinct m)

theorem leafSized {path} (hit : (mapTree len m).subtreeAt path = some (.leaf k v)) :
    k.length = len ∧ v.length = 32 ∧ SparseTree.OnPath keyBit 0 path k := by
  obtain ⟨listed,along⟩ := (subtreeAtEntries (mapApart sized) hit (k,v)).mp (mem_singleton.mpr rfl)
  exact ⟨(sized _ listed).1,(sized _ listed).2,along⟩

section
variable {key : Bytes} (length : key.length = len)
include length

theorem answerKey : (queryAnswer sha len m key).key.length = len ∧
    SparseTree.OnPath keyBit 0 (queryPath len m key) (queryAnswer sha len m key).key := by
  have own : SparseTree.OnPath keyBit 0 (queryPath len m key) key := wayOnPath key _ _ _
  have hit := @queryFound len m key
  rw [queryAnswer,answer,← queryTip]
  cases tip : queryTip len m key with
  | empty | node l r => exact ⟨length,own⟩
  | leaf k v =>
    rw [tip] at hit
    obtain ⟨sizedKey,_,along⟩ := leafSized sized hit
    exact ⟨sizedKey,along⟩

theorem answerPath : (queryAnswer sha len m key).Valid ∧ (queryAnswer sha len m key).path = queryPath len m key := by
  obtain ⟨sizedKey,along⟩ := @answerKey sha len m sized _ length
  have short : (queryPath len m key).length ≤ 8*len := wayLength key _ _ _
  have height : (queryAnswer sha len m key).height = (queryPath len m key).length := by
    rw [height,(answerHashes key).1,pathHashes,length_reverse,length_map,besideLength (queryFound key)]
  have bits := takeOnPath along (by rw [sizedKey]; omega)
  refine ⟨?_,?_⟩
  · rw [QueryProof.Valid,height,binaryKey,toBoolsLength,sizedKey]
    exact short
  · rw [path,height]
    exact bits

theorem answerCollects : Collects sha (mapTree len m) (queryAnswer sha len m key) := by
  obtain ⟨valid,path⟩ := @answerPath sha len m sized _ length
  refine ⟨valid,?_,?_,?_⟩
  · rw [path]
    exact ⟨_,queryFound key⟩
  · rw [path]
    exact (answerHashes key).1
  · rw [path]
    exact (answerHashes key).2

omit length in
theorem answerHash (key : Bytes) : (queryAnswer sha len m key).hash = treeRoot sha (queryTip len m key) := by
  have hit := @queryFound len m key
  rw [queryAnswer,answer,← queryTip]
  cases tip : queryTip len m key with
  | empty => rfl
  | node l r => exact absurd tip (queryTipEnds key l r)
  | leaf k v =>
    rw [tip] at hit
    obtain ⟨_,filled,_⟩ := leafSized sized hit
    rw [answerOf,newQueryProof,if_pos (by omega)]
    rfl

omit sized length in
theorem answerRead (key : Bytes) : queryProofOf sha (queryAnswer sha len m key).query =
    {queryAnswer sha len m key with siblingHashes := [], ancestorHashes := []} := by
  have strip := stripPacked (@answerFirst sha len m key)
  rw [queryProofOf,query,strip]
  rw [queryAnswer,answer,← queryTip]
  cases queryTip len m key <;> rfl

theorem answerStands : Stands sha (mapTree len m) (queryProofOf sha (queryAnswer sha len m key).query) ∧
    (queryProofOf sha (queryAnswer sha len m key).query).path = queryPath len m key := by
  obtain ⟨valid,path⟩ := @answerPath sha len m sized _ length
  rw [answerRead]
  refine ⟨⟨valid,⟨queryTip len m key,?_,answerHash sized key⟩,?_⟩,path⟩
  · exact (congrArg (fun p => (mapTree len m).subtreeAt p) path).trans (queryFound key)
  · exact (answerHashes key).1.trans (congrArg (fun p => (pathHashes sha (mapTree len m) p).binaryBitmap) path.symm)

end

theorem answerSame {key key'} (length : key.length = len) (length' : key'.length = len)
    (same : (queryAnswer sha len m key).key = (queryAnswer sha len m key').key) :
    queryAnswer sha len m key = queryAnswer sha len m key' := by
  have along := (@answerKey sha len m sized _ length).2
  have along' := (@answerKey sha len m sized _ length').2
  rw [same] at along
  have hit := @queryFound len m key
  have hit' := @queryFound len m key'
  have path : queryPath len m key = queryPath len m key' := by
    rcases le_total (queryPath len m key).length (queryPath len m key').length with within | within
    · exact tipEnds (queryTipEnds key) hit hit' (onPathPrefix along along' within)
    · exact (tipEnds (queryTipEnds key') hit' hit (onPathPrefix along' along within)).symm
  have tip : queryTip len m key = queryTip len m key' := by
    rw [path,hit'] at hit
    exact (Option.some.inj hit).symm
  rw [queryAnswer,queryAnswer,answer,answer,← queryTip,← queryTip,← queryPath,← queryPath,path,tip] at same ⊢
  cases isTip : queryTip len m key' with
  | leaf k v => rfl
  | empty =>
    rw [isTip] at same
    exact congrArg (fun k => answerOf sha k _ _) same
  | node l r => exact absurd isTip (queryTipEnds key' l r)

theorem answerCommon {key} (length : key.length = len) : (stripPrefixFalse (toBools (queryAnswer sha len m key).query.bitmap)).length ≤
      (commonPrefix (toBools key) (toBools (queryAnswer sha len m key).query.key)).length := by
  obtain ⟨sizedKey,along⟩ := @answerKey sha len m sized _ length
  obtain ⟨valid,path⟩ := @answerPath sha len m sized _ length
  have short : (queryPath len m key).length ≤ 8*len := wayLength key _ _ _
  have bits := takeOnPath along (by rw [sizedKey]; omega)
  have own := takeOnPath (wayOnPath key (8*len) 0 (mapTree len m)) (by rw [length,← queryPath]; omega)
  have height : (queryAnswer sha len m key).binaryBitmap.length = (queryPath len m key).length := by
    rw [← path,pathLength valid]
    rfl
  rw [query,stripPacked (answerFirst key),height]
  refine commonPrefixLength (own.trans bits.symm) ?_ ?_
  · rw [toBoolsLength,length]
    exact short
  · rw [toBoolsLength,sizedKey]
    exact short

theorem answersAgree {key} (length : key.length = len) {seen : List Bytes} (lens : ∀ key ∈ seen, key.length = len) :
    ((seen.map (fun key => (queryAnswer sha len m key).query)).find? (·.key = (queryAnswer sha len m key).query.key)).any (fun q =>
        q.bitmap ≠ (queryAnswer sha len m key).query.bitmap ∨ q.value ≠ (queryAnswer sha len m key).query.value) = false := by
  cases hit : (seen.map (fun key => (queryAnswer sha len m key).query)).find?
    (·.key = (queryAnswer sha len m key).query.key) with
  | none => rfl
  | some q =>
    have names := find?_some hit
    obtain ⟨key',listed,rfl⟩ := mem_map.mp (mem_of_find?_eq_some hit)
    rw [decide_eq_true_eq] at names
    have same := @answerSame sha len m sized _ _ (lens key' listed) length names
    simp [same]

theorem answersChecked {keys seen : List Bytes} (lens : ∀ key ∈ keys, key.length = len) (lens' : ∀ key ∈ seen, key.length = len) :
    checkQueries len (seen.map (fun key => (queryAnswer sha len m key).query))
      (keys.zip (keys.map (fun key => (queryAnswer sha len m key).query))) = .ok true := by
  induction keys generalizing seen with
  | nil => rfl
  | cons key rest ih =>
    have length := lens key (.head _)
    have next := @ih (key::seen) (fun k mem => lens k (.tail _ mem))
      (forall_mem_cons.mpr ⟨length,lens'⟩)
    have head : (queryAnswer sha len m key).query.bitmap.head? ≠ some 0 := packedHead (answerFirst key)
    rw [map_cons,zip_cons_cons,checkQueries,if_neg (not_not_intro length),answersAgree sized length lens',
      if_neg (by decide),if_neg head,if_neg (not_lt.mpr (answerCommon sized length))]
    split <;> exact next

end

def keptPaths : List Bytes → List (List Bool) → List (List Bool)
  | _, [] => []
  | seen, path :: rest =>
    if fromBools path ∈ seen then keptPaths seen rest else path :: keptPaths (fromBools path :: seen) rest

theorem keptSublist (seen : List Bytes) (paths : List (List Bool)) : List.Sublist (keptPaths seen paths) paths := by
  induction paths generalizing seen with
  | nil => exact List.Sublist.refl _
  | cons path rest ih =>
    rw [keptPaths]
    split
    · exact (ih seen).cons _
    · exact (ih _).cons_cons _

theorem keptSome (filled : paths ≠ []) : keptPaths [] paths ≠ [] := by
  cases paths with
  | nil => exact absurd rfl filled
  | cons path rest => simp [keptPaths]

/-- The queries that the verification leaves out end in an empty subtree next to one that it keeps. -/
def NothingHidden (keyLength : Nat) (m : KeyValueMap) (queryKeys : List Bytes) : Prop :=
  Harmless (mapTree keyLength m) (queryKeys.map (queryPath keyLength m)) (keptPaths [] (queryKeys.map (queryPath keyLength m)))

instance (keyLength : Nat) (m : KeyValueMap) (queryKeys : List Bytes) : Decidable (NothingHidden keyLength m queryKeys) := by
  unfold NothingHidden Harmless
  infer_instance

theorem filterKept {qs} (valid : ∀ q ∈ qs, (queryProofOf sha q).Valid) (seen : List Bytes) :
    ∃ filtered, filterProofs sha seen qs = .ok filtered ∧
      filtered.map QueryProof.path = keptPaths seen (qs.map (fun q => (queryProofOf sha q).path)) := by
  induction qs generalizing seen with
  | nil => exact ⟨[],rfl,rfl⟩
  | cons q rest ih =>
    have path := binaryPathOk (valid q (.head _))
    have later := ih (fun r mem => valid r (.tail _ mem))
    simp only [filterProofs,path,bind,Except.bind,map_cons,keptPaths]
    split
    · exact later seen
    · obtain ⟨filtered,run,paths⟩ := later (fromBools (queryProofOf sha q).path::seen)
      exact ⟨queryProofOf sha q::filtered,by rw [run],by rw [map_cons,paths]⟩

theorem besideFound (filled : besideEnd t p ≠ .empty) : t.subtreeAt (sibling p) = some (besideEnd t p) := by
  rw [besideEnd] at filled ⊢
  cases hit : t.subtreeAt (sibling p) with
  | none => rw [hit] at filled; exact absurd rfl filled
  | some x => rfl

theorem ancestorMember (key h : Bytes) : h ∈ (queryAnswer sha len m key).ancestorHashes ↔ ∃ p x, p <+: queryPath len m key ∧
      (mapTree len m).subtreeAt p = some x ∧ x ≠ .empty ∧ h = treeRoot sha x := by
  have hit := @queryFound len m key
  have exceeds : h ∈ ((mapTree len m).above (queryPath len m key)).map (treeRoot sha) ↔
      ∃ p x, p <+: queryPath len m key ∧ p ≠ queryPath len m key ∧
        (mapTree len m).subtreeAt p = some x ∧ x ≠ .empty ∧ h = treeRoot sha x := by
    rw [mem_map]
    constructor
    · rintro ⟨x,listed,rfl⟩
      obtain ⟨p,b,more,path,place⟩ := (aboveMember hit x).mp listed
      have ne : p ≠ queryPath len m key := fun same => by
        rw [path] at same
        simpa using congrArg length same
      have along : p <+: queryPath len m key := ⟨b::more,path.symm⟩
      refine ⟨p,x,along,ne,place,?_,rfl⟩
      rintro rfl
      exact ne (tipEnds (by simp) place hit along)
    · rintro ⟨p,x,⟨more,path⟩,ne,place,_,rfl⟩
      refine ⟨x,(aboveMember hit x).mpr ?_,rfl⟩
      cases more with
      | nil => exact absurd (by simpa using path) ne
      | cons b more => exact ⟨p,b,more,path.symm,place⟩
  have whole : ∀ {p x}, p <+: queryPath len m key → (mapTree len m).subtreeAt p = some x →
      p ≠ queryPath len m key ∨ x = queryTip len m key := by
    intro p x _ place
    by_cases same : p = queryPath len m key
    · rw [same,hit] at place
      exact .inr (Option.some.inj place).symm
    · exact .inl same
  have tips := @queryTipEnds len m key
  rw [queryAnswer,answer,← queryTip,← queryPath]
  cases tip : queryTip len m key with
  | node l r => exact absurd tip (tips l r)
  | empty =>
    show h ∈ ((mapTree len m).above (queryPath len m key)).map (treeRoot sha) ↔ _
    rw [exceeds]
    constructor
    · rintro ⟨p,x,along,_,rest⟩
      exact ⟨p,x,along,rest⟩
    rintro ⟨p,x,along,place,filled,hash⟩
    rcases whole along place with ne | same
    · exact ⟨p,x,along,ne,place,filled,hash⟩
    · exact absurd (same.trans tip) filled
  | leaf k v =>
    show h ∈ ((mapTree len m).above (queryPath len m key)).map (treeRoot sha) ++ [leafHash sha k v] ↔ _
    rw [mem_append,exceeds,mem_singleton]
    rw [tip] at hit
    constructor
    · rintro (⟨p,x,along,_,rest⟩ | hash)
      · exact ⟨p,x,along,rest⟩
      · exact ⟨_,_,prefix_rfl,hit,by simp,hash⟩
    rintro ⟨p,x,along,place,filled,hash⟩
    rcases whole along place with ne | same
    · exact .inl ⟨p,x,along,ne,place,filled,hash⟩
    · rw [same,tip] at hash
      exact .inr hash

section
variable {len : Nat} {m : KeyValueMap} (sized : SizedMap len 32 m) {S : Tree → Prop} (hashing : Hashing sha S)
  (known : S (mapTree len m))
include sized hashing known

theorem besideUnique : OneBeside sha (mapTree len m) := by
  intro p q ne ne' filled same
  have trees := hashing.unique _ _ (subtreeKnown hashing known p) (subtreeKnown hashing known q) same
  have place := besideFound filled
  have place' := besideFound (trees ▸ filled)
  rw [trees] at place
  have siblings := placeUnique (mapApart sized) (trees ▸ filled) place place'
  rw [← siblingTwice ne,siblings,siblingTwice ne']

theorem missingNeeds {keys : List Bytes} (passed : Passed places (keys.map (queryPath len m))) :
    missing sha (mapTree len m) ((keys.map (queryAnswer sha len m)).flatMap (·.ancestorHashes)) [] places =
      needs sha (mapTree len m) places := by
  unfold missing needs
  congr 1
  refine filter_congr (fun p _ => ?_)
  rw [decide_eq_decide,Wanted]
  refine and_congr_right (fun filled => ?_)
  have place := besideFound filled
  simp only [not_mem_nil,not_false_eq_true,and_true]
  refine not_congr ?_
  rw [passed.mem]
  simp only [mem_flatMap,mem_map,exists_exists_and_eq_and,ancestorMember]
  constructor
  · rintro ⟨key,listed,p',x,along,place',_,hash⟩
    have same := hashing.unique _ _ (subtreeKnown hashing known p) (hashing.down _ _ known (subtreeAtMember place')) hash
    rw [← same] at place'
    exact ⟨siblingNonempty p,key,listed,placeUnique (mapApart sized) filled place place' ▸ along⟩
  · rintro ⟨_,key,listed,along⟩
    exact ⟨key,listed,sibling p,_,along,place,filled,rfl⟩

section
variable {σ : Type} {store : Store σ} {s} (pos : 1 ≤ len) (size : ∀ data, (sha data).length = 32)
  (keeps : Keeps sha 8 (store.get s) (mapTree len m))
include σ pos size keeps

theorem rootAnswers : getSubtree sha store.toDB ⟨treeRoot sha (mapTree len m),len,8⟩ s (treeRoot sha (mapTree len m)) =
      .ok (stored sha 8 (mapTree len m)) ∧ ∀ key, key.length = len →
      generateQueryProof sha store.toDB ⟨treeRoot sha (mapTree len m),len,8⟩ s key (2*len+1) 0
        (stored sha 8 (mapTree len m)) = .ok (queryAnswer sha len m key) := by
  have sized' : SizedTree sha len (mapTree len m) := by
    intro e mem
    rw [show hashSize sha = 32 from size []]
    exact sized e ((mapTreeEntries (fun e inside => (sized e inside).1)).mem_iff.mp mem)
  refine ⟨getSubtreeHeld hashing (le_refl 8) rfl known sized' keeps.entry,fun key length => ?_⟩
  obtain ⟨k,rfl⟩ : ∃ k, len = k+1 := ⟨len - 1,by omega⟩
  exact generateAnswer (b := 0) hashing rfl rfl length (zero_add _) (by omega) known sized' keeps.below
    (buildDepth _ _ _)

theorem proveAnswers {keys} (filled : keys ≠ [])
    (lens : ∀ key ∈ keys, key.length = len) (passed : Passed places (keys.map (queryPath len m))) :
    Trie.prove sha store.toDB ⟨treeRoot sha (mapTree len m),len,8⟩ s keys =
      .ok ⟨needs sha (mapTree len m) places,keys.map (fun key => (queryAnswer sha len m key).query)⟩ := by
  obtain ⟨hit,made⟩ := rootAnswers sized hashing known pos size keeps
  have answers := mapMOk (forall₂_map_right_iff.mpr (forall₂_same.mpr (fun key mem => made key (lens key mem))))
  have perm := sortQueriesPerm (keys.map (queryAnswer sha len m))
  have collects : ∀ q ∈ sortQueries (keys.map (queryAnswer sha len m)), Collects sha (mapTree len m) q := by
    intro q mem
    obtain ⟨key,listed,rfl⟩ := mem_map.mp (perm.mem_iff.mp mem)
    exact answerCollects sized (lens key listed)
  have paths : (keys.map (queryAnswer sha len m)).map path = keys.map (queryPath len m) := by
    rw [map_map]
    exact map_congr_left (fun key listed => (answerPath sized (lens key listed)).2)
  have collected := @collectSiblings sha (mapTree len m) (besideUnique sized hashing known)
    ((keys.map (queryAnswer sha len m)).flatMap (·.ancestorHashes)) [] _ _ (sortQueriesSorted _) collects (le_refl _) _
    (passedCongr passed (fun p => by rw [(perm.map _).mem_iff,paths]))
  rw [missingNeeds sized hashing known passed,nil_append] at collected
  unfold Trie.prove
  rw [if_neg (by simpa using filled),hit]
  simp only [bind,Except.bind]
  rw [answers]
  simp only [calculateSiblingHashes]
  rw [collected]
  simp

end

omit hashing known in
theorem keptAnswers {keys : List Bytes} (lens : ∀ key ∈ keys, key.length = len) :
    ∃ filtered, filterProofs sha [] (keys.map (fun key => (queryAnswer sha len m key).query)) = .ok filtered ∧
      filtered.map QueryProof.path = keptPaths [] (keys.map (queryPath len m)) ∧
      (∀ q ∈ filtered, Stands sha (mapTree len m) q) ∧ Queue (sortQueries filtered) := by
  have stand : ∀ q ∈ keys.map (fun key => (queryAnswer sha len m key).query), ∃ key ∈ keys,
      Stands sha (mapTree len m) (queryProofOf sha q) ∧ (queryProofOf sha q).path = queryPath len m key := by
    intro q mem
    obtain ⟨key,listed,rfl⟩ := mem_map.mp mem
    exact ⟨key,listed,answerStands sized (lens key listed)⟩
  have paths : (keys.map (fun key => (queryAnswer sha len m key).query)).map (fun q => (queryProofOf sha q).path) =
      keys.map (queryPath len m) := by
    rw [map_map]
    exact map_congr_left (fun key listed => (answerStands sized (lens key listed)).2)
  obtain ⟨filtered,run,kept⟩ := @filterKept sha _ (fun q mem => by
    obtain ⟨_,_,stands,_⟩ := stand q mem
    exact stands.valid) []
  rw [paths] at kept
  have filter := filterProofsOk run
  have stand' : ∀ f ∈ filtered, ∃ key ∈ keys, Stands sha (mapTree len m) f ∧ f.path = queryPath len m key := by
    intro f mem
    obtain ⟨q,inside,rfl,_⟩ := filter.kept f mem
    exact stand q inside
  have perm := sortQueriesPerm filtered
  refine ⟨filtered,run,kept,fun f mem => ?_,sortQueriesSorted filtered,fun f mem => ?_,?_⟩
  · obtain ⟨_,_,stands,_⟩ := stand' f mem
    exact stands
  · obtain ⟨_,_,stands,_⟩ := stand' f (perm.mem_iff.mp mem)
    exact stands.valid
  refine perm.symm.pairwise ?_ incomparableSymm
  refine filter.distinct.imp_of_mem (fun {a b} left right differ => ?_)
  obtain ⟨key,_,_,path⟩ := stand' a left
  obtain ⟨key',_,_,path'⟩ := stand' b right
  rw [path,path'] at differ
  unfold Incomparable
  rw [path,path']
  have apart : queryPath len m key ≠ queryPath len m key' := fun same => differ (by rw [same])
  exact ⟨fun along => apart (tipEnds (queryTipEnds key) (queryFound key) (queryFound key') along),
    fun along => apart (tipEnds (queryTipEnds key') (queryFound key') (queryFound key) along).symm⟩

theorem verifyAnswers (size : ∀ data, (sha data).length = 32) {keys} (found : keys ≠ [])
    (lens : ∀ key ∈ keys, key.length = len) (passed : Passed places (keys.map (queryPath len m)))
    (shape : proof = ⟨needs sha (mapTree len m) places,keys.map (fun key => (queryAnswer sha len m key).query)⟩) :
    (NothingHidden len m keys → verify sha keys proof (treeRoot sha (mapTree len m)) len = .ok true) ∧
    (CollisionFree sha (hashedBy sha [mapTree len m] ++ verifyStrings sha proof) →
      verify sha keys proof (treeRoot sha (mapTree len m)) len = .ok true → NothingHidden len m keys) := by
  obtain ⟨filtered,run,kept,stands,queue⟩ := @keptAnswers sha len m sized keys lens
  obtain ⟨keptPlaces,passed'⟩ := passedExists (keptPaths [] (keys.map (queryPath len m)))
  have filled : hashSize sha ≠ 0 := by rw [show hashSize sha = 32 from size []]; decide
  have tips : Tips (mapTree len m) (keys.map (queryPath len m)) := by
    intro p mem
    obtain ⟨key,_,rfl⟩ := mem_map.mp mem
    exact ⟨_,queryFound key,queryTipEnds key⟩
  have sub : ∀ p ∈ keptPaths [] (keys.map (queryPath len m)), p ∈ keys.map (queryPath len m) :=
    fun p mem => (keptSublist _ _).subset mem
  have someKept : keptPaths [] (keys.map (queryPath len m)) ≠ [] := keptSome (by simpa using found)
  have perm := sortQueriesPerm filtered
  have stands' : ∀ q ∈ sortQueries filtered, Stands sha (mapTree len m) q := fun q mem => stands q (perm.mem_iff.mp mem)
  have passed'' := passedCongr passed' (fun p => by rw [(perm.map _).mem_iff,kept])
  have checked := @answersChecked sha len m sized keys [] lens (by simp)
  have verified : verify sha keys proof (treeRoot sha (mapTree len m)) len =
      (calculateRootLoop sha (levels filtered) (needs sha (mapTree len m) places) (sortQueries filtered)).map
        (fun root => decide (treeRoot sha (mapTree len m) = root)) := by
    rw [shape,verify,if_neg (by simp)]
    simp only [map_nil] at checked
    rw [checked,run]
    simp only [bind,Except.bind,if_true,calculateRoot]
    cases calculateRootLoop sha (levels filtered) (needs sha (mapTree len m) places) (sortQueries filtered) <;> rfl
  rw [verified]
  constructor
  · intro harmless
    have more : sortQueries filtered ≠ [] := by
      intro none
      rw [none,nil_perm] at perm
      rw [perm] at kept
      exact someKept kept.symm
    rw [← needsKept tips sub passed passed' harmless,
      rootComplete hashing known filled more queue stands' (levelsPerm perm).le passed'']
    simp [Except.map]
  · intro free acc
    by_contra harm
    refine needsLost tips sub passed passed' (besideUnique sized hashing known) someKept harm ?_
    have strings : verifyStrings sha proof = leafStrings filtered ++
        rootStrings sha (levels filtered) (needs sha (mapTree len m) places) (sortQueries filtered) := by
      rw [shape]
      simp only [verifyStrings,run]
    rw [strings] at free
    refine needsTaken hashing known filled free
      (fun x inside => mem_append_left _ (hashedKnown (.inr ⟨_,mem_singleton.mpr rfl,inside⟩))) queue stands'
      (fun data mem => mem_append_right _ (mem_append_right _ mem)) passed'' ?_
    cases res : calculateRootLoop sha (levels filtered) (needs sha (mapTree len m) places) (sortQueries filtered) with
    | error e => rw [res] at acc; cases acc
    | ok root =>
      rw [res] at acc
      have same : treeRoot sha (mapTree len m) = root := by simpa [Except.map] using acc
      rw [same]

end
def mapAfter (calls : List (List KeyValue)) : KeyValueMap := resultMap OrderedMap.empty (calls.map (uniqueKeys []))

theorem uniqueBatches {len} {calls : List (List KeyValue)}
    (sized : ∀ call ∈ calls, ∀ kv ∈ call, kv.1.length = len ∧ (kv.2.length = 32 ∨ kv.2 = [])) :
    ∀ call ∈ calls.map (uniqueKeys []), Batch len 32 call := by
  intro call mem
  obtain ⟨call,listed,rfl⟩ := mem_map.mp mem
  have sub := (uniqueKeysSublist [] call).subset
  exact ⟨fun kv inside => (sized call listed kv (sub inside)).1,fun kv inside => (sized call listed kv (sub inside)).2,
    (uniqueKeysNodup [] call).1⟩

theorem updatesReach {len} (pos : 1 ≤ len) (size : ∀ data, (sha data).length = 32) {calls}
    (sized : ∀ call ∈ calls, ∀ kv ∈ call, kv.1.length = len ∧ (kv.2.length = 32 ∨ kv.2 = []))
    (free : CollisionFree sha (hashedBy sha ((mapsAlong OrderedMap.empty (calls.map (uniqueKeys []))).map (mapTree len)))) :
    SizedMap len 32 (mapAfter calls) ∧ ∃ S : Tree → Prop, Hashing sha S ∧ S (mapTree len (mapAfter calls)) ∧
      ∃ s, runUpdates sha idealStore.toDB OrderedMap.empty (newTrie sha [] len) calls =
          .ok (s,⟨treeRoot sha (mapTree len (mapAfter calls)),len,8⟩) ∧
        Keeps sha 8 (idealStore.get s) (mapTree len (mapAfter calls)) := by
  have batches := uniqueBatches sized
  have last := resultAlong empty (calls.map (uniqueKeys []))
  obtain ⟨s,run,keeps,_⟩ := runFromEmpty pos size batches free idealCommits empty
  rw [runCommittedId,← runUnique] at run
  exact ⟨alongSized batches _ last,_,alongHashing size batches free,Or.inr ⟨_,mem_map_of_mem last,selfSubtree _⟩,s,run,keeps⟩

theorem provedVerifiesIff (sha : Bytes → Bytes) (keyLength : Nat) (calls : List (List KeyValue)) (queryKeys : List Bytes)
    (positive : 1 ≤ keyLength) (size : ∀ data, (sha data).length = 32)
    (sized : ∀ call ∈ calls, ∀ kv ∈ call, kv.1.length = keyLength ∧ (kv.2.length = 32 ∨ kv.2 = []))
    (free : CollisionFree sha (hashedBy sha ((mapsAlong OrderedMap.empty (calls.map (uniqueKeys []))).map (mapTree keyLength))))
    (filled : queryKeys ≠ []) (lengths : ∀ key ∈ queryKeys, key.length = keyLength) :
    ∃ s t proof, runUpdates sha idealStore.toDB OrderedMap.empty (newTrie sha [] keyLength) calls = .ok (s, t) ∧
      t.prove sha idealStore.toDB s queryKeys = .ok proof ∧
      (NothingHidden keyLength (mapAfter calls) queryKeys → verify sha queryKeys proof t.root keyLength = .ok true) ∧
      (CollisionFree sha (hashedBy sha [mapTree keyLength (mapAfter calls)] ++ verifyStrings sha proof) →
        verify sha queryKeys proof t.root keyLength = .ok true → NothingHidden keyLength (mapAfter calls) queryKeys) := by
  obtain ⟨sizedMap,S,hashing,known,s,run,keeps⟩ := updatesReach positive size sized free
  obtain ⟨places,passed⟩ := passedExists (queryKeys.map (queryPath keyLength (mapAfter calls)))
  exact ⟨s,_,_,run,proveAnswers sizedMap hashing known positive size keeps filled lengths passed,
    verifyAnswers sizedMap hashing known size filled lengths passed rfl⟩

def threeKeys : List (List KeyValue) := [[([0], sampleValue 1),([64], sampleValue 2),([128], sampleValue 3)]]

theorem provedVerifiesSample : ∃ s t proof,
    runUpdates sampleSha idealStore.toDB OrderedMap.empty (newTrie sampleSha [] 1) threeKeys = .ok (s, t) ∧
    t.prove sampleSha idealStore.toDB s [[0], [192], [128], [0]] = .ok proof ∧
    verify sampleSha [[0], [192], [128], [0]] proof t.root 1 = .ok true := by
  obtain ⟨s,t,proof,run,proved,verified,_⟩ := provedVerifiesIff sampleSha 1 threeKeys [[0],[192],[128],[0]] (by decide)
    sampleShaLength (by decide +kernel) (by decide +kernel) (by decide) (by decide)
  exact ⟨s,t,proof,run,proved,verified (by decide +kernel)⟩

theorem secondQueryHidden :
    (do
      let (s, t) ← runUpdates sampleSha idealStore.toDB OrderedMap.empty (newTrie sampleSha [] 1) threeKeys
      let proof ← t.prove sampleSha idealStore.toDB s [[128], [64]]
      verify sampleSha [[128], [64]] proof t.root 1) = .ok false ∧
    CollisionFree sampleSha (hashedBy sampleSha ((mapsAlong OrderedMap.empty (threeKeys.map (uniqueKeys []))).map (mapTree 1))) := by
  decide +kernel

end LiskEngine.Smt
