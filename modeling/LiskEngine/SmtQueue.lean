import Mathlib.Data.List.Induction
import Mathlib.Tactic.Ring
import LiskEngine.SmtBins
import LiskEngine.SmtProof

/-! The queue of queries. Keys order queries of one height as the numbers of their
paths do, so a query whose sibling is queried as well has it next in the queue. -/
namespace LiskEngine.Smt
open List Option QueryProof

def number (bits : List Bool) : Nat := bits.foldl (fun n b => 2 * n + b.toNat) 0

theorem numberFold (bits : List Bool) (n : Nat) : bits.foldl (fun n b => 2*n+b.toNat) n = n*2^bits.length+number bits := by
  induction bits generalizing n with
  | nil => simp [number]
  | cons b rest ih =>
    simp only [number,foldl_cons,length_cons]
    rw [ih,ih (2*0+b.toNat),pow_succ]
    ring

theorem numberAppend (xs ys : List Bool) : number (xs ++ ys) = number xs*2^ys.length+number ys := by
  rw [number,foldl_append,numberFold]
  rfl

theorem numberConcat (xs : List Bool) (b : Bool) : number (xs ++ [b]) = 2*number xs+b.toNat := by
  rw [number,foldl_append]
  rfl

theorem numberLt (bits : List Bool) : number bits < 2^bits.length := by
  induction bits using reverseRecOn with
  | nil => decide
  | append_singleton xs b ih =>
    rw [numberConcat,length_append,length_singleton,pow_succ]
    cases b <;> simp only [Bool.toNat_true,Bool.toNat_false] <;> omega

theorem numberInjective {xs ys} (len : xs.length = ys.length) (same : number xs = number ys) : xs = ys := by
  induction xs using reverseRecOn generalizing ys with
  | nil => exact (length_eq_zero_iff.mp len.symm).symm
  | append_singleton xs b ih =>
    obtain ⟨ys,c,rfl⟩ : ∃ zs c, ys = zs ++ [c] := by
      have ne : ys ≠ [] := by
        rintro rfl
        simp at len
      exact ⟨ys.dropLast,ys.getLast ne,(dropLast_append_getLast ne).symm⟩
    simp only [length_append,length_singleton,add_right_cancel_iff] at len
    rw [numberConcat,numberConcat] at same
    have bits : b = c ∧ number xs = number ys := by
      cases b <;> cases c <;> simp only [Bool.toNat_true,Bool.toNat_false] at same <;> simp <;> omega
    rw [bits.1,ih len bits.2]

theorem numberTake (bits : List Bool) (n : Nat) : number (bits.take n) = number bits/2^(bits.length-n) := by
  have whole := numberAppend (bits.take n) (bits.drop n)
  have small := numberLt (bits.drop n)
  rw [take_append_drop] at whole
  rw [length_drop] at whole small
  rw [whole,Nat.mul_comm,Nat.mul_add_div (Nat.two_pow_pos _),Nat.div_eq_of_lt small,Nat.add_zero]

theorem toBoolsCons (byte : UInt8) (rest : Bytes) : toBools (byte::rest) = (List.range 8).map (bitOf byte) ++ toBools rest := rfl

theorem toBoolsLength (val : Bytes) : (toBools val).length = 8*val.length := by
  induction val with
  | nil => rfl
  | cons byte rest ih => rw [toBoolsCons,length_append,ih,length_map,length_range,length_cons]; omega

theorem toBoolsBit {val i} (inside : i < 8*val.length) : (toBools val)[i]? = some (keyBit val i) := by
  induction val generalizing i with
  | nil => simp at inside
  | cons byte rest ih =>
    rw [toBoolsCons]
    by_cases first : i < 8
    · rw [getElem?_append_left (by simpa using first),getElem?_map,getElem?_range first]
      simp [keyBit,Nat.div_eq_of_lt first,Nat.mod_eq_of_lt first]
    obtain ⟨j,rfl⟩ : ∃ j, i = j+8 := ⟨i - 8,by omega⟩
    rw [getElem?_append_right (by simp),length_map,length_range,Nat.add_sub_cancel,
      ih (by simp only [length_cons] at inside; omega)]
    have high : (j+8)/8 = j/8+1 := by omega
    have low : (j+8) % 8 = j % 8 := by omega
    simp [keyBit,high,low]

theorem byteNumber (byte : UInt8) : number ((List.range 8).map (bitOf byte)) = byte.toNat := by
  have all : ∀ n : Fin 256, number ((range 8).map (bitOf (UInt8.ofNat n))) = n := by decide +kernel
  simpa using all ⟨byte.toNat,UInt8.toNat_lt byte⟩

theorem numberMono {a b n} (within : a ≤ b) (shortA : n ≤ 8*a.length) (shortB : n ≤ 8*b.length) :
    number ((toBools a).take n) ≤ number ((toBools b).take n) := by
  induction a generalizing b n with
  | nil =>
    obtain rfl : n = 0 := by simpa using shortA
    simp
  | cons x xs ih =>
    cases b with
    | nil =>
      obtain rfl : n = 0 := by simpa using shortB
      simp
    | cons y ys =>
      have order : x < y ∨ (x = y ∧ xs ≤ ys) := by
        rcases lt_trichotomy x y with smaller | same | more
        · exact .inl smaller
        · refine .inr ⟨same,?_⟩
          subst same
          exact not_lt.mp (fun smaller => absurd within (not_le.mpr (List.Lex.cons smaller)))
        · exact absurd within (not_le.mpr (List.Lex.rel more))
      have size : ∀ byte : UInt8, ((range 8).map (bitOf byte)).length = 8 := by simp
      rw [toBoolsCons,toBoolsCons]
      by_cases few : n ≤ 8
      · rw [take_append_of_le_length (by rw [size]; exact few),take_append_of_le_length (by rw [size]; exact few),
          numberTake,numberTake,size,size,byteNumber,byteNumber]
        refine Nat.div_le_div_right ?_
        rcases order with smaller | ⟨rfl,_⟩
        · exact (UInt8.lt_iff_toNat_lt.mp smaller).le
        · exact Nat.le_refl _
      · simp only [length_cons] at shortA shortB
        have takes : ∀ (byte : UInt8) (rest : List Bool), ((range 8).map (bitOf byte) ++ rest).take n =
            (range 8).map (bitOf byte) ++ rest.take (n-8) := by
          intro byte rest
          rw [take_append,size,take_of_length_le (by rw [size]; omega)]
        rw [takes,takes,numberAppend,numberAppend,byteNumber,byteNumber]
        have sizeA : ((toBools xs).take (n-8)).length = n-8 := by
          rw [length_take,toBoolsLength]
          omega
        have sizeB : ((toBools ys).take (n-8)).length = n-8 := by
          rw [length_take,toBoolsLength]
          omega
        have small := numberLt ((toBools xs).take (n-8))
        rw [sizeA] at small
        rw [sizeA,sizeB]
        rcases order with smaller | ⟨rfl,tails⟩
        · have step := Nat.mul_le_mul_right (2^(n-8)) (UInt8.lt_iff_toNat_lt.mp smaller)
          rw [Nat.succ_mul] at step
          omega
        · have later := ih (n := n-8) tails (by omega) (by omega)
          omega

namespace QueryProof

def path (q : QueryProof) : List Bool := q.binaryKey.take q.height

def Valid (q : QueryProof) : Prop := q.height ≤ q.binaryKey.length

theorem pathLength {q : QueryProof} (valid : q.Valid) : q.path.length = q.height := by
  rw [path,length_take]
  exact min_eq_left valid

theorem binaryPathOk {q : QueryProof} (valid : q.Valid) : q.binaryPath = .ok q.path := by
  rw [binaryPath,if_neg (not_lt.mpr valid)]
  rfl

theorem beforeTrans {a b c : QueryProof} (first : a.before b) (second : b.before c) : a.before c := by
  rcases first with lower | ⟨same,le⟩
  · rcases second with lower' | ⟨same',_⟩
    · exact .inl (lower'.trans lower)
    · exact .inl (by omega)
  · rcases second with lower' | ⟨same',le'⟩
    · exact .inl (by omega)
    · exact .inr ⟨by omega,le.trans le'⟩

theorem beforeTotal (a b : QueryProof) : a.before b ∨ b.before a := by
  rcases lt_trichotomy a.height b.height with smaller | same | more
  · exact .inr (.inl smaller)
  · rcases le_total a.key b.key with within | within
    · exact .inl (.inr ⟨same.symm,within⟩)
    · exact .inr (.inr ⟨same,within⟩)
  · exact .inl (.inl more)

theorem beforeNumber {a b : QueryProof} (order : a.before b) (same : b.height = a.height) (validA : a.Valid)
    (validB : b.Valid) : number a.path ≤ number b.path := by
  rcases order with lower | ⟨_,le⟩
  · omega
  unfold Valid binaryKey at validA validB
  rw [toBoolsLength] at validA validB
  rw [path,path,same]
  exact numberMono le validA (by rw [← same]; exact validB)

end QueryProof

def Sorted (queries : List QueryProof) : Prop := queries.Pairwise QueryProof.before

theorem sortQueriesSorted (qs : List QueryProof) : Sorted (sortQueries qs) := by
  have : IsTrans QueryProof before := ⟨fun _ _ _ => beforeTrans⟩
  have : Std.Total before := ⟨beforeTotal⟩
  exact pairwise_insertionSort before qs

theorem sortQueriesPerm (qs : List QueryProof) : (sortQueries qs).Perm qs := perm_insertionSort before qs

theorem levelsPerm {xs ys} (perm : xs.Perm ys) : levels xs = levels ys := (perm.map _).sum_nat

theorem levelsCons (q : QueryProof) (qs : List QueryProof) : levels (q::qs) = q.height+1+levels qs := rfl

theorem binarySearchLoopSplit {α : Type} {less} {xs ys : List α} (before : ∀ x ∈ xs, less x = false)
    (after : ∀ y ∈ ys, less y = true) {fuel low high} (lower : low ≤ xs.length) (upper : xs.length ≤ high)
    (fit : high ≤ (xs ++ ys).length) (enough : high-low ≤ fuel) : binarySearchLoop less (xs ++ ys) fuel low high = .ok xs.length := by
  induction fuel generalizing low high with
  | zero =>
    rw [binarySearchLoop,if_neg (by omega)]
    exact congrArg _ (by omega)
  | succ fuel ih =>
    rw [binarySearchLoop]
    by_cases more : low < high
    · rw [if_pos more]
      have mid : low+(high-low+1)/2-1 < (xs ++ ys).length := by omega
      simp only [indexOk (getElem?_eq_getElem mid),bind,Except.bind]
      by_cases left : low+(high-low+1)/2-1 < xs.length
      · rw [getElem_append_left left,before _ (getElem_mem left)]
        exact ih (by omega) upper fit (by omega)
      · rw [getElem_append_right (by omega),after _ (getElem_mem _)]
        exact ih lower (by omega) (by omega) (by omega)
    · rw [if_neg more]
      exact congrArg _ (by omega)

def comesAfter (query val : QueryProof) : Bool :=
  (query.height = val.height ∧ query.key < val.key) ∨ val.height < query.height

theorem comesAfterBefore {query val} (after : comesAfter query val = true) : query.before val := by
  simp only [comesAfter,decide_eq_true_eq] at after
  rcases after with ⟨same,less⟩ | lower
  · exact .inr ⟨same.symm,less.le⟩
  · exact .inl lower

theorem notAfterBefore {query val} (notAfter : comesAfter query val = false) : val.before query := by
  simp only [comesAfter,decide_eq_false_iff_not,not_or,not_and,not_lt] at notAfter
  rcases lt_or_eq_of_le notAfter.2 with lower | same
  · exact .inl lower
  · exact .inr ⟨same,notAfter.1 same⟩

theorem comesAfterMono {query val later} (after : comesAfter query val = true) (order : val.before later) :
    comesAfter query later = true := by
  simp only [comesAfter,decide_eq_true_eq] at after ⊢
  rcases after with ⟨same,less⟩ | lower
  · rcases order with lower | ⟨same',le⟩
    · exact .inr (by omega)
    · exact .inl ⟨by omega,less.trans_le le⟩
  · rcases order with lower' | ⟨same',_⟩
    · exact .inr (by omega)
    · exact .inr (by omega)

theorem sortedSplit {qs} (sorted : Sorted qs) (query : QueryProof) :
    ∃ xs ys, qs = xs ++ ys ∧ (∀ x ∈ xs, comesAfter query x = false) ∧ (∀ y ∈ ys, comesAfter query y = true) := by
  induction qs with
  | nil => exact ⟨[],[],rfl,by simp,by simp⟩
  | cons q rest ih =>
    obtain ⟨first,tail⟩ := pairwise_cons.mp sorted
    cases after : comesAfter query q with
    | true =>
      refine ⟨[],q::rest,rfl,by simp,fun y mem => ?_⟩
      rcases mem_cons.mp mem with rfl | later
      · exact after
      · exact comesAfterMono after (first y later)
    | false =>
      obtain ⟨xs,ys,rfl,notAfter,isAfter⟩ := ih tail
      refine ⟨q::xs,ys,rfl,fun x mem => ?_,isAfter⟩
      rcases mem_cons.mp mem with rfl | later
      · exact after
      · exact notAfter x later

theorem insertQuery {qs} (sorted : Sorted qs) {query} (valid : query.Valid) (valids : ∀ q ∈ qs, q.Valid) :
    ∃ xs ys, qs = xs ++ ys ∧ Sorted (xs ++ query::ys) ∧ insertAndFilterQueries query qs =
        .ok (if ys.head?.map QueryProof.path = some query.path then qs else xs ++ query::ys) := by
  obtain ⟨xs,ys,rfl,notAfter,isAfter⟩ := sortedSplit sorted query
  refine ⟨xs,ys,rfl,?_,?_⟩
  · obtain ⟨left,right,across⟩ := pairwise_append.mp sorted
    refine pairwise_append.mpr ⟨left,pairwise_cons.mpr ⟨fun y mem => comesAfterBefore (isAfter y mem),right⟩,?_⟩
    intro x mem y mem'
    rcases mem_cons.mp mem' with rfl | later
    · exact notAfterBefore (notAfter x mem)
    · exact across x mem y later
  · have search : binarySearch (xs ++ ys) (fun val =>
        decide ((query.height = val.height ∧ query.key < val.key) ∨ val.height < query.height)) = .ok xs.length :=
      binarySearchLoopSplit notAfter isAfter (Nat.zero_le _) (by simp) (le_refl _) (le_refl _)
    unfold insertAndFilterQueries
    by_cases empty : (xs ++ ys).length = 0
    · rw [if_pos empty]
      obtain ⟨rfl,rfl⟩ := append_eq_nil_iff.mp (length_eq_zero_iff.mp empty)
      rfl
    · rw [if_neg empty]
      simp only [search,bind,Except.bind]
      cases ys with
      | nil => simp
      | cons y rest =>
        have hit : index (xs ++ y::rest) xs.length = .ok y := indexOk (by simp)
        have original := binaryPathOk (valids y (by simp))
        have inside : xs.length ≠ (xs ++ y::rest).length := by simp
        simp only [if_neg inside,hit,binaryPathOk valid,original,head?_cons,map_some,some.injEq,take_left',drop_left']
        by_cases same : query.path = y.path
        · simp [same]
        · simp [same,Ne.symm same]

def Incomparable (a b : QueryProof) : Prop := ¬a.path <+: b.path ∧ ¬b.path <+: a.path

theorem incomparableSymm {a b} (apart : Incomparable a b) : Incomparable b a := ⟨apart.2,apart.1⟩

structure Queue (queries : List QueryProof) : Prop where
  sorted : Sorted queries
  valid : ∀ q ∈ queries, q.Valid
  antichain : queries.Pairwise Incomparable

theorem queueTop {q rest} (queue : Queue (q::rest)) (top : q.height = 0) : rest = [] ∧ q.path = [] := by
  have path : q.path = [] := by rw [path,top,take_zero]
  refine ⟨?_,path⟩
  cases rest with
  | nil => rfl
  | cons r rest =>
    have apart := ((pairwise_cons.mp queue.antichain).1 r (by simp)).1
    rw [path] at apart
    exact absurd nil_prefix apart

theorem pathEnd {q : QueryProof} (valid : q.Valid) (pos : q.height ≠ 0) :
    ∃ p b, q.path = p ++ [b] ∧ p.length+1 = q.height ∧ q.binaryKey.take (q.height-1) = p ∧ index q.binaryKey (q.height-1) = .ok b := by
  have inside : q.height-1 < q.binaryKey.length := by
    unfold QueryProof.Valid at valid
    omega
  refine ⟨q.binaryKey.take (q.height-1),q.binaryKey[q.height-1],?_,?_,rfl,indexOk (getElem?_eq_getElem inside)⟩
  · rw [take_append_getElem inside,Nat.sub_add_cancel (by omega)]
    rfl
  · rw [length_take]
    omega

theorem isSiblingOk {q s : QueryProof} (validQ : q.Valid) (validS : s.Valid) (pos : q.height ≠ 0) {p b}
    (ends : q.path = p ++ [b]) : q.isSiblingOf s = .ok (decide (s.path = p ++ [!b])) := by
  unfold isSiblingOf
  by_cases same : q.height = s.height
  · obtain ⟨p',b',ends',len,start,last⟩ := pathEnd validQ pos
    obtain ⟨p2,c,endsS,lengthS,startS,lastS⟩ := pathEnd validS (same ▸ pos)
    obtain ⟨rfl,rfl⟩ : p' = p ∧ b' = b := by simpa using append_inj' (ends'.symm.trans ends) rfl
    unfold QueryProof.Valid at validQ validS
    rw [if_neg (not_not_intro same),if_neg (by omega),start,startS,endsS]
    by_cases paths : p' = p2
    · subst paths
      rw [if_neg (not_not_intro rfl),last,same,lastS]
      cases b' <;> cases c <;> simp [bind,Except.bind]
    · rw [if_pos paths]
      have differ : p2 ++ [c] ≠ p' ++ [!b'] := fun eq => paths (append_inj' eq rfl).1.symm
      simp [differ]
  · rw [if_pos same]
    have differ : s.path ≠ p ++ [!b] := by
      intro eq
      have lens := congrArg length eq
      have own := congrArg length ends
      rw [pathLength validS] at lens
      rw [pathLength validQ] at own
      simp only [length_append,length_singleton] at lens own
      omega
    simp [differ]

theorem siblingNext {q s rest} (queue : Queue (q::rest)) {p b} (ends : q.path = p ++ [b]) (mem : s ∈ rest)
    (sibling : s.path = p ++ [!b]) : ∃ s' rest', rest = s'::rest' ∧ s'.path = p ++ [!b] := by
  obtain ⟨next,rest',rfl⟩ := exists_cons_of_ne_nil (ne_nil_of_mem mem)
  refine ⟨next,rest',rfl,?_⟩
  obtain ⟨first,tail⟩ := pairwise_cons.mp queue.sorted
  have validQ := queue.valid q (by simp)
  have validN := queue.valid next (by simp)
  have validS := queue.valid s (.tail _ mem)
  have heightS : s.height = q.height := by
    rw [← pathLength validS,← pathLength validQ,sibling,ends]
    simp
  have toNext := first next (by simp)
  have toSibling : next = s ∨ next.before s := by
    rcases mem_cons.mp mem with rfl | later
    · exact .inl rfl
    · exact .inr ((pairwise_cons.mp tail).1 s later)
  have heightN : next.height = q.height := by
    have upper : next.height ≤ q.height := by rcases toNext with lower | ⟨same,_⟩ <;> omega
    have lower : s.height ≤ next.height := by
      rcases toSibling with rfl | lower | ⟨same,_⟩
      · exact le_refl _
      · exact lower.le
      · exact same.le
    omega
  have low := beforeNumber toNext heightN validQ validN
  have high : number next.path ≤ number s.path := by
    rcases toSibling with rfl | order
    · exact le_refl _
    · exact beforeNumber order (heightS.trans heightN.symm) validN validS
  have lens : next.path.length = q.path.length := by
    rw [pathLength validN,pathLength validQ,heightN]
  have apart := ((pairwise_cons.mp queue.antichain).1 next (by simp)).1
  have differ : number next.path ≠ number q.path := by
    intro same
    rw [numberInjective lens same] at apart
    exact apart (prefix_rfl)
  refine numberInjective (by rw [lens,ends]; simp) ?_
  rw [sibling,numberConcat] at high
  rw [ends,numberConcat] at low differ
  rw [numberConcat]
  cases b <;> simp only [Bool.not_true,Bool.not_false,Bool.toNat_true,Bool.toNat_false] at * <;> omega

def WithoutSibling (sibling : List Bool) (rest rest' : List QueryProof) : Prop :=
  (∃ s, rest = s :: rest' ∧ s.path = sibling) ∨ (rest' = rest ∧ ∀ s ∈ rest, s.path ≠ sibling)

def raise (q : QueryProof) (hash : Bytes) : QueryProof := {q with hash := hash, binaryBitmap := q.binaryBitmap.tail}

theorem raiseHeight (q : QueryProof) (hash : Bytes) : (raise q hash).height = q.height-1 := length_tail

theorem raisePath {q} (valid : q.Valid) {p b} (ends : q.path = p ++ [b]) (hash : Bytes) :
    (raise q hash).path = p ∧ (raise q hash).Valid := by
  have len := congrArg length ends
  rw [pathLength valid,length_append,length_singleton] at len
  obtain ⟨p',b',ends',_,start,_⟩ := pathEnd valid (by omega)
  obtain ⟨rfl,rfl⟩ : p' = p ∧ b' = b := by simpa using append_inj' (ends'.symm.trans ends) rfl
  unfold QueryProof.Valid at *
  rw [raiseHeight]
  refine ⟨?_,by show q.height-1 ≤ q.binaryKey.length; omega⟩
  rw [path,raiseHeight]
  exact start

theorem raiseIncomparable {q rest rest'} (queue : Queue (q::rest)) {p b} (ends : q.path = p ++ [b])
    (left : WithoutSibling (p ++ [!b]) rest rest') (hash : Bytes) : ∀ r ∈ rest', Incomparable (raise q hash) r := by
  intro r mem
  obtain ⟨first,tail⟩ := pairwise_cons.mp queue.antichain
  have inRest : r ∈ rest := by
    rcases left with ⟨s,rfl,_⟩ | ⟨rfl,_⟩
    · exact .tail _ mem
    · exact mem
  have notSibling : r.path ≠ p ++ [!b] := by
    rcases left with ⟨s,rfl,sibling⟩ | ⟨rfl,absent⟩
    · intro same
      have apart := ((pairwise_cons.mp tail).1 r mem).1
      rw [same,sibling] at apart
      exact apart prefix_rfl
    · exact absent r mem
  have apart := first r inRest
  have validQ := queue.valid q (by simp)
  have validR := queue.valid r (.tail _ inRest)
  have height : r.path.length ≤ p.length+1 := by
    have len := congrArg length ends
    rw [pathLength validQ,length_append,length_singleton] at len
    rw [pathLength validR]
    rcases (pairwise_cons.mp queue.sorted).1 r inRest with lower | ⟨same,_⟩ <;> omega
  unfold Incomparable at *
  rw [(raisePath validQ ends hash).1]
  rw [ends] at apart
  refine ⟨?_,fun shorter => apart.2 (shorter.trans (prefix_append p [b]))⟩
  rintro ⟨more,same⟩
  rw [← same,length_append] at height
  match more, height with
  | [], _ =>
    rw [append_nil] at same
    exact apart.2 (same ▸ prefix_append p [b])
  | [c], _ =>
    by_cases bit : c = b
    · subst bit
      exact apart.1 (same ▸ prefix_rfl)
    · have other : c = !b := by cases b <;> cases c <;> simp_all
      exact notSibling (by rw [← same,other])
  | _::_::_, height => simp at height

theorem withoutSublist {sibling rest rest'} (left : WithoutSibling sibling rest rest') : List.Sublist rest' rest := by
  rcases left with ⟨s,rfl,_⟩ | ⟨rfl,_⟩
  · exact sublist_cons_self s rest'
  · exact List.Sublist.refl _

theorem raiseQueue {q rest rest'} (queue : Queue (q::rest)) {p b} (ends : q.path = p ++ [b])
    (left : WithoutSibling (p ++ [!b]) rest rest') (hash : Bytes) :
    ∃ qs, insertAndFilterQueries (raise q hash) rest' = .ok qs ∧ Queue qs ∧ qs.Perm (raise q hash::rest') := by
  have sub := withoutSublist left
  have apart := raiseIncomparable queue ends left hash
  have raised := raisePath (queue.valid q (by simp)) ends hash
  have valids : ∀ r ∈ rest', r.Valid := fun r mem => queue.valid r (.tail _ (sub.subset mem))
  obtain ⟨xs,ys,rfl,sorted,inserted⟩ := insertQuery
    ((pairwise_cons.mp queue.sorted).2.sublist sub) raised.2 valids
  have free : ys.head?.map path ≠ some (raise q hash).path := by
    intro same
    obtain ⟨y,isHead,path⟩ := map_eq_some_iff.mp same
    have no := (apart y (mem_append_right _ (mem_of_mem_head? isHead))).2
    rw [path] at no
    exact no prefix_rfl
  rw [if_neg free] at inserted
  have perm : (xs ++ raise q hash::ys).Perm (raise q hash::(xs ++ ys)) := perm_middle
  refine ⟨_,inserted,⟨sorted,?_,?_⟩,perm⟩
  · intro r mem
    rcases mem_cons.mp (perm.mem_iff.mp mem) with rfl | old
    · exact raised.2
    · exact valids r old
  · have whole := pairwise_cons.mpr ⟨apart,(pairwise_cons.mp queue.antichain).2.sublist sub⟩
    exact perm.symm.pairwise whole incomparableSymm

theorem findSiblingCases {sha q rest} (queue : Queue (q::rest)) (pos : q.height ≠ 0) {p b} (ends : q.path = p ++ [b])
    (sibs : List Bytes) :
    (∃ s rest', rest = s::rest' ∧ s.path = p ++ [!b] ∧ findSibling sha sibs q rest = (do
        let siblingHash ← mergeSibling sha q s
        .ok (siblingHash,sibs,rest'))) ∨
    ((∀ s ∈ rest, s.path ≠ p ++ [!b]) ∧ findSibling sha sibs q rest = (do
        let (siblingHash,sibs) ← takeSibling sha sibs q
        .ok (siblingHash,sibs,rest))) := by
  have validQ := queue.valid q (by simp)
  by_cases queried : ∃ s ∈ rest, s.path = p ++ [!b]
  · obtain ⟨s,mem,sibling⟩ := queried
    obtain ⟨s',rest',rfl,next⟩ := siblingNext queue ends mem sibling
    refine .inl ⟨s',rest',rfl,next,?_⟩
    have merged := isSiblingOk validQ (queue.valid s' (by simp)) pos ends
    simp [findSibling,merged,next,bind,Except.bind]
  · have absent : ∀ s ∈ rest, s.path ≠ p ++ [!b] := fun s mem same => queried ⟨s,mem,same⟩
    refine .inr ⟨absent,?_⟩
    cases rest with
    | nil => rfl
    | cons s rest =>
      have merged := isSiblingOk validQ (queue.valid s (by simp)) pos ends
      simp [findSibling,merged,absent s (by simp),bind,Except.bind]

end LiskEngine.Smt
