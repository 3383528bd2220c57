import LiskEngine.CommitPool

/-! The commits a broadcast sends. Commits below the stored range come first, then the
largest ones that were not sent yet; the second search starts from all commits that were
not sent yet, so it finds those below the range once more. -/
namespace LiskEngine.Consensus
open List SingleCommits

def below (maxHeightPrecommited : Nat) (commit : SingleCommit) : Bool := commit.height < maxHeightPrecommited - commitRangeStored

section
variable (m : Nat)

def lowCommits (l : List SingleCommit) : List SingleCommit := (SingleCommits.sort l).filter (below m)

def storedCommits (internal : Bool) (l : List SingleCommit) : List SingleCommit :=
  ((SingleCommits.sort l).filter (fun commit => !below m commit)).reverse.filter (fun commit => commit.internal = internal)

def lowAgain (internal : Bool) (l : List SingleCommit) : List SingleCommit :=
  (lowCommits m l).reverse.filter (fun commit => commit.internal = internal)

def selectionOrder (p : Pool) : List SingleCommit :=
  lowCommits m p.nonGossiped ++ lowCommits m p.gossiped ++ (storedCommits m true p.nonGossiped ++ lowAgain m true p.nonGossiped) ++
    (storedCommits m false p.nonGossiped ++ lowAgain m false p.nonGossiped)

def distinctOrder (p : Pool) : List SingleCommit :=
  lowCommits m p.nonGossiped ++ lowCommits m p.gossiped ++ storedCommits m true p.nonGossiped ++ storedCommits m false p.nonGossiped

end

theorem sortPerm (l : List SingleCommit) : (sort l).Perm l := perm_insertionSort _ _

theorem sortAscendingHeights (l : List SingleCommit) : (sort l).Pairwise (fun a b => a.height ≤ b.height) := by
  exact pairwise_insertionSort _ _

theorem ascendingSplit {s : List SingleCommit} (sorted : s.Pairwise (fun a b => a.height ≤ b.height)) (m : Nat) :
    s = s.filter (below m) ++ s.filter (fun commit => !below m commit) := by
  induction s with
  | nil => rfl
  | cons a s ih =>
    obtain ⟨least,sorted⟩ := pairwise_cons.mp sorted
    cases first : below m a with
    | true =>
      rw [filter_cons_of_pos first,filter_cons_of_neg (by simp [first]),cons_append,← ih sorted]
    | false =>
      have absent : s.filter (below m) = [] := by
        refine filter_eq_nil_iff.mpr fun b mem low => ?_
        have := least b mem
        simp only [below,decide_eq_true_eq,decide_eq_false_iff_not] at first low
        omega
      have rest := ih sorted
      rw [absent,nil_append] at rest
      rw [filter_cons_of_neg (by simp [first]),absent,filter_cons_of_pos (by simp [first]),nil_append,← rest]

theorem untilLow (l : List SingleCommit) (m : Nat) : getUntil (sort l) (m-commitRangeStored) = lowCommits m l := by
  have high : ((sort l).filter (fun commit => !below m commit)).takeWhile (below m) = [] := by
    cases shape : (sort l).filter (fun commit => !below m commit) with
    | nil => rfl
    | cons a rest =>
      have mem := shape ▸ mem_cons_self
      exact takeWhile_cons_of_neg (by simpa using (mem_filter.mp mem).2)
  calc getUntil (sort l) (m-commitRangeStored)
      = (sort l).takeWhile (below m) := rfl
    _ = (lowCommits m l ++ (sort l).filter (fun commit => !below m commit)).takeWhile (below m) := by
      rw [lowCommits,← ascendingSplit (sortAscendingHeights l) m]
    _ = lowCommits m l := by
      rw [lowCommits,takeWhile_append_of_pos (fun a mem => (mem_filter.mp mem).2),high,append_nil]

theorem largestLoopTake (limit : Nat) (internal : Bool) (l res : List SingleCommit) (room : res.length < limit) :
    largestLoop limit internal l res = res ++ (l.filter (·.internal = internal)).take (limit-res.length) := by
  induction l generalizing res with
  | nil => simp [largestLoop]
  | cons commit rest ih =>
    rw [largestLoop]
    by_cases same : commit.internal = internal
    · have one : limit-res.length = limit-(res ++ [commit]).length+1 := by
        rw [length_append,length_singleton]
        omega
      simp only [same,if_true]
      rw [filter_cons_of_pos (by simpa using same),one,take_succ_cons]
      split
      · rename_i enough
        rw [Nat.sub_eq_zero_of_le enough,take_zero]
      · rename_i more
        rw [ih _ (Nat.lt_of_not_le more),append_assoc,singleton_append]
    · simp only [same,if_false]
      rw [filter_cons_of_neg (by simpa using same),if_neg (Nat.not_le_of_lt room)]
      exact ih res room

theorem largestTake (l : List SingleCommit) {limit : Nat} (internal : Bool) (room : 0 < limit) (m : Nat) :
    getLargestWithLimit (sort l) limit internal = (storedCommits m internal l ++ lowAgain m internal l).take limit := by
  unfold getLargestWithLimit storedCommits lowAgain lowCommits
  rw [largestLoopTake limit internal _ [] room,← filter_append,← reverse_append,← ascendingSplit (sortAscendingHeights l) m]
  rfl

theorem appendTake {front l : List SingleCommit} {limit} (room : front.length ≤ limit) :
    front ++ l.take (limit-front.length) = (front ++ l).take limit := by
  rw [take_append,take_of_length_le room]

theorem selectTake (p : Pool) (m limit : Nat) : (p.select m limit).2 = (selectionOrder m p).take limit := by
  have bound : (if m > commitRangeStored then m-commitRangeStored else 0) = m-commitRangeStored := by
    split <;> omega
  unfold Pool.select selectionOrder
  rw [bound]
  dsimp only
  rw [untilLow,untilLow]
  split
  · rename_i enough
    rw [append_assoc,append_assoc,take_append_of_le_length enough]
  generalize lowCommits m p.nonGossiped ++ lowCommits m p.gossiped = low
  split
  · rename_i enough
    rw [append_assoc,take_append_of_le_length enough]
  rename_i more
  rw [largestTake p.nonGossiped true (by omega) m,appendTake (by omega)]
  split
  · rename_i enough
    rw [length_take] at enough
    rw [take_take,min_self,take_append_of_le_length (le_trans enough (min_le_right _ _))]
  · rename_i more
    rw [length_take] at more
    rw [take_of_length_le (by omega : (low ++ _).length ≤ limit),largestTake p.nonGossiped false (by omega) m,
      appendTake (by omega),take_take,min_self]

section
variable {p : Pool} {m limit : Nat}

theorem memLow : commit ∈ lowCommits m l ↔ commit ∈ l ∧ below m commit = true := by
  rw [lowCommits,mem_filter,(sortPerm l).mem_iff]

theorem memStored : commit ∈ storedCommits m internal l ↔ commit ∈ l ∧ below m commit = false ∧ commit.internal = internal := by
  rw [storedCommits,mem_filter,mem_reverse,mem_filter,(sortPerm l).mem_iff]
  simp [and_assoc]

theorem memLowAgain : commit ∈ lowAgain m internal l ↔ commit ∈ l ∧ below m commit = true ∧ commit.internal = internal := by
  rw [lowAgain,mem_filter,mem_reverse,memLow]
  simp [and_assoc]

theorem lowLength (l : List SingleCommit) : (lowCommits m l).length = l.countP (below m) := by
  rw [lowCommits,← countP_eq_length_filter,(sortPerm l).countP_eq]

theorem storedPerm (l : List SingleCommit) :
    (storedCommits m true l ++ storedCommits m false l).Perm ((sort l).filter (fun commit => !below m commit)) := by
  have kinds : ∀ l : List SingleCommit, l.filter (·.internal = false) = l.filter (fun commit => !(commit.internal = true)) := by
    intro l
    congr 1
    funext commit
    cases commit.internal <;> rfl
  unfold storedCommits
  rw [kinds]
  exact (filter_append_perm _ _).trans (reverse_perm _)

theorem distinctPerm (p : Pool) (m : Nat) : (distinctOrder m p).Perm (lowCommits m p.gossiped ++ p.nonGossiped) := by
  have split := filter_append_perm (below m) (sort p.nonGossiped)
  unfold distinctOrder
  rw [append_assoc,append_assoc]
  refine (perm_append_comm_assoc _ _ _).trans ((List.Perm.refl _).append ?_)
  exact (((List.Perm.refl _).append (storedPerm p.nonGossiped)).trans split).trans (sortPerm p.nonGossiped)

theorem storedLength (internal : Bool) (l : List SingleCommit) :
    (storedCommits m internal l).length = l.countP (fun commit => !below m commit && commit.internal = internal) := by
  rw [storedCommits,← countP_eq_length_filter,countP_reverse,countP_filter,(sortPerm l).countP_eq]
  congr 1
  funext commit
  rw [Bool.and_comm]

/-- The groups are long enough to stop before any low commit of the search is reached, or there is none. -/
def NoRepeat (p : Pool) (m limit : Nat) : Prop :=
  ((∀ commit ∈ p.nonGossiped, below m commit = true → commit.internal = false) ∨
    limit ≤ p.commits.countP (below m) + p.nonGossiped.countP (fun commit => !below m commit && commit.internal)) ∧
  ((∀ commit ∈ p.nonGossiped, below m commit = true → commit.internal = true) ∨
    limit ≤ p.commits.countP (below m) + p.nonGossiped.countP (fun commit => !below m commit))

structure Selected (p : Pool) (m limit : Nat) (result : List SingleCommit) : Prop where
  bounded : result.length ≤ limit
  fromPool : ∀ commit ∈ result, commit ∈ p.commits
  distinct : result.Nodup
  full : limit ≤ p.nonGossiped.length + p.gossiped.countP (below m) → result.length = limit
  lowFirst : result.Pairwise (fun a b => below m b = true → below m a = true)
  lowAll : ∀ commit ∈ result, below m commit = false → ∀ low ∈ p.commits, below m low = true → low ∈ result

theorem lowInternalLength : (lowCommits m p.nonGossiped ++ lowCommits m p.gossiped ++ storedCommits m true p.nonGossiped).length =
      p.commits.countP (below m)+p.nonGossiped.countP (fun commit => !below m commit && commit.internal) := by
  rw [length_append,length_append,lowLength,lowLength,storedLength,Pool.commits,countP_append]
  simp only [Bool.decide_eq_true]
  omega

theorem distinctLength :
    (distinctOrder m p).length = p.commits.countP (below m)+p.nonGossiped.countP (fun commit => !below m commit) := by
  have stored := (storedPerm (m := m) p.nonGossiped).length_eq
  rw [length_append,← countP_eq_length_filter,(sortPerm _).countP_eq] at stored
  rw [distinctOrder,length_append,length_append,length_append,lowLength,lowLength,Pool.commits,countP_append]
  omega

theorem lowAgainNil (absent : ∀ commit ∈ l, below m commit = true → commit.internal = !internal) : lowAgain m internal l = [] := by
  refine eq_nil_iff_forall_not_mem.mpr fun commit mem => ?_
  obtain ⟨inside,low,same⟩ := memLowAgain.mp mem
  have other := absent commit inside low
  rw [same] at other
  cases internal <;> cases other

theorem takeDistinct (noRepeat : NoRepeat p m limit) : (selectionOrder m p).take limit = (distinctOrder m p).take limit := by
  obtain ⟨internals,others⟩ := noRepeat
  rcases internals with absent | enough
  · have order : selectionOrder m p = distinctOrder m p ++ lowAgain m false p.nonGossiped := by
      rw [selectionOrder,distinctOrder,lowAgainNil absent,append_nil,← append_assoc]
    rw [order]
    rcases others with absent | enough
    · rw [lowAgainNil absent,append_nil]
    · rw [take_append_of_le_length (distinctLength ▸ enough)]
  · rw [← lowInternalLength] at enough
    have order : selectionOrder m p = lowCommits m p.nonGossiped ++ lowCommits m p.gossiped ++ storedCommits m true p.nonGossiped ++
        (lowAgain m true p.nonGossiped ++ (storedCommits m false p.nonGossiped ++ lowAgain m false p.nonGossiped)) := by
      rw [selectionOrder]
      simp only [append_assoc]
    rw [order,distinctOrder,take_append_of_le_length enough,take_append_of_le_length enough]

theorem repeatedInTake (early : commit ∈ front) (reached : front.length < limit) : ¬((front ++ commit::back).take limit).Nodup := by
  intro nodup
  obtain ⟨more,rfl⟩ : ∃ more, limit = front.length+(more+1) := ⟨limit - front.length - 1,by omega⟩
  rw [take_length_add_append,take_succ_cons] at nodup
  exact disjoint_of_nodup_append nodup early (.head _)

theorem stopsBeforeLow (nodup : ((selectionOrder m p).take limit).Nodup) (front back : List SingleCommit) (internal : Bool)
    (order : selectionOrder m p = front ++ lowAgain m internal p.nonGossiped ++ back) (early : lowCommits m p.nonGossiped ⊆ front) :
    (∀ commit ∈ p.nonGossiped, below m commit = true → commit.internal = !internal) ∨ limit ≤ front.length := by
  cases again : lowAgain m internal p.nonGossiped with
  | nil =>
    refine .inl fun commit mem low => ?_
    have other : commit.internal ≠ internal := by
      intro same
      have : commit ∈ lowAgain m internal p.nonGossiped := memLowAgain.mpr ⟨mem,low,same⟩
      rw [again] at this
      cases this
    exact Bool.eq_not_of_ne other
  | cons commit rest =>
    refine .inr (Nat.le_of_not_lt fun beyond => ?_)
    obtain ⟨inside,low,_⟩ := memLowAgain.mp (again ▸ mem_cons_self : commit ∈ lowAgain m internal p.nonGossiped)
    rw [order,again,append_assoc,cons_append] at nodup
    exact repeatedInTake (early (memLow.mpr ⟨inside,low⟩)) beyond nodup

theorem noRepeatOf (nodup : ((selectionOrder m p).take limit).Nodup) : NoRepeat p m limit := by
  have internals := stopsBeforeLow nodup
    (lowCommits m p.nonGossiped ++ lowCommits m p.gossiped ++ storedCommits m true p.nonGossiped)
    (storedCommits m false p.nonGossiped ++ lowAgain m false p.nonGossiped) true
    (by rw [selectionOrder]; simp only [append_assoc]) (by simp)
  rw [lowInternalLength] at internals
  refine ⟨internals,?_⟩
  have fewer : p.nonGossiped.countP (fun commit => !below m commit && commit.internal) ≤
      p.nonGossiped.countP (fun commit => !below m commit) :=
    countP_mono_left fun commit _ both => (Bool.and_eq_true _ _ ▸ both).1
  rcases internals with absent | enough
  · have others := stopsBeforeLow nodup (distinctOrder m p) [] false
      (by rw [selectionOrder,distinctOrder,lowAgainNil absent]; simp only [append_assoc,append_nil])
      (by simp [distinctOrder])
    rwa [distinctLength] at others
  · exact .inr (by omega)

theorem lowOf : commit ∈ lowCommits m p.nonGossiped ++ lowCommits m p.gossiped ↔ commit ∈ p.commits ∧ below m commit = true := by
  rw [mem_append,memLow,memLow,Pool.commits,mem_append,← or_and_right,or_comm]

theorem storedOf (mem : commit ∈ storedCommits m true p.nonGossiped ++ storedCommits m false p.nonGossiped) :
    below m commit = false := by
  rcases mem_append.mp mem with internal | other
  · exact (memStored.mp internal).2.1
  · exact (memStored.mp other).2.1

theorem distinctSelected (nodup : p.commits.Nodup) : Selected p m limit ((distinctOrder m p).take limit) := by
  have perm := distinctPerm p m
  have part : (lowCommits m p.gossiped ++ p.nonGossiped).Subperm p.commits :=
    (filter_sublist.subperm.trans (sortPerm p.gossiped).subperm).append (List.Subperm.refl _)
  have groups : distinctOrder m p = (lowCommits m p.nonGossiped ++ lowCommits m p.gossiped) ++
      (storedCommits m true p.nonGossiped ++ storedCommits m false p.nonGossiped) := append_assoc _ _ _
  have shorter := take_sublist limit (distinctOrder m p)
  refine ⟨length_take_le _ _,fun commit mem => part.subset (perm.subset (shorter.subset mem)),?_,fun enough => ?_,?_,?_⟩
  · obtain ⟨kept,same,sub⟩ := part
    exact (perm.nodup_iff.mpr (same.nodup_iff.mp (nodup.sublist sub))).sublist shorter
  · have len := perm.length_eq
    rw [length_append,lowLength] at len
    rw [length_take]
    omega
  · refine List.Pairwise.sublist shorter ?_
    rw [groups]
    refine pairwise_append.mpr ⟨?_,?_,fun a mem b _ _ => (lowOf.mp mem).2⟩
    · exact pairwise_of_forall_mem_list fun a mem b _ _ => (lowOf.mp mem).2
    · refine pairwise_of_forall_mem_list fun a _ b mem low => ?_
      rw [storedOf mem] at low
      cases low
  · intro commit mem stored low inside isLow
    rw [groups] at mem ⊢
    have among := lowOf.mpr ⟨inside,isLow⟩
    rcases le_total limit (lowCommits m p.nonGossiped ++ lowCommits m p.gossiped).length with cut | whole
    · rw [take_append_of_le_length cut] at mem
      rw [(lowOf.mp (mem_of_mem_take mem)).2] at stored
      cases stored
    · rw [take_append,take_of_length_le whole]
      exact mem_append_left _ among

theorem selectRightIff (distinct : p.commits.Nodup) : Selected p m limit (p.select m limit).2 ↔ NoRepeat p m limit := by
  rw [selectTake]
  constructor
  · exact fun selected => noRepeatOf selected.distinct
  · intro noRepeat
    rw [takeDistinct noRepeat]
    exact distinctSelected distinct

end

def lowSample : SingleCommit := ⟨[1],1,[1],[],false⟩

def mixedSample : Pool := ⟨[lowSample,⟨[3],300,[1],[],true⟩,⟨[4],301,[1],[],false⟩],[{lowSample with validatorAddress := [2]}]⟩

theorem selectRightMixed : Selected mixedSample 200 4 (mixedSample.select 200 4).2 :=
  (selectRightIff (by decide)).mpr ⟨.inl (by decide),.inr (by decide)⟩

theorem selectedTwice : (Pool.select ⟨[lowSample], []⟩ 200 2).2 = [lowSample, lowSample] ∧
    ¬Selected ⟨[lowSample], []⟩ 200 2 (Pool.select ⟨[lowSample], []⟩ 200 2).2 := by
  have twice : (Pool.select ⟨[lowSample],[]⟩ 200 2).2 = [lowSample,lowSample] := by decide
  refine ⟨twice,fun selected => ?_⟩
  have distinct := selected.distinct
  exact absurd distinct (by decide)

end LiskEngine.Consensus
