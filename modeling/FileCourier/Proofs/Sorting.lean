import FileCourier.Path

/-!
# Sorted lists

Sorting byte strings rearranges them; sorting paths puts them in strictly increasing path order and
keeps exactly one of each key.
-/

namespace FileCourier

namespace Bytes

theorem sort_perm (l : List Bytes) : (sort l).Perm l := List.mergeSort_perm l _

theorem mem_sort {x : Bytes} {l : List Bytes} : x ∈ sort l ↔ x ∈ l := (sort_perm l).mem_iff

theorem sort_nil : sort [] = [] := List.mergeSort_nil

theorem sort_singleton (x : Bytes) : sort [x] = [x] := List.mergeSort_singleton x

theorem pairwise_sort (l : List Bytes) : (sort l).Pairwise (· ≤ ·) := by
  refine (List.pairwise_mergeSort ?trans ?total l).imp of_decide_eq_true
  case trans =>
    intro x y z hxy hyz
    exact decide_eq_true (List.le_trans (of_decide_eq_true hxy) (of_decide_eq_true hyz))
  case total =>
    intro x y
    rw [Bool.or_eq_true, decide_eq_true_iff, decide_eq_true_iff]
    exact List.le_total x y

/-- Without repetitions, sorting leaves no two that are equal. -/
theorem pairwise_lt_sort {l : List Bytes} (h : l.Nodup) : (sort l).Pairwise (· < ·) := by
  have hnodup : (sort l).Nodup := (sort_perm l).nodup_iff.2 h
  refine ((pairwise_sort l).and hnodup).imp fun ⟨hle, hne⟩ => ?_
  exact Decidable.byContradiction fun hnot => hne (List.le_antisymm hle (List.not_lt.1 hnot))

end Bytes

namespace Path

variable {p q : Path} {l : List Path}

theorem prepend_cases (p : Path) (l : List Path) :
    prepend p l = p :: l ∨ ∃ q r, l = q :: r ∧ p.key = q.key ∧ prepend p l = p :: r := by
  cases l with
  | nil => exact .inl rfl
  | cons q r =>
    rw [prepend]
    split
    · exact .inr ⟨q, r, rfl, ‹_›, rfl⟩
    · exact .inl rfl

theorem mem_of_mem_prepend (h : q ∈ prepend p l) : q = p ∨ q ∈ l := by
  rcases prepend_cases p l with heq | ⟨q', r, rfl, -, heq⟩
  · rw [heq] at h
    exact List.mem_cons.1 h
  · rw [heq] at h
    exact (List.mem_cons.1 h).imp_right (List.mem_cons_of_mem q')

theorem exists_mem_prepend (h : q = p ∨ q ∈ l) : ∃ q' ∈ prepend p l, q'.key = q.key := by
  rcases prepend_cases p l with heq | ⟨q', r, rfl, hkey, heq⟩
  · rw [heq]
    exact ⟨q, List.mem_cons.2 h, rfl⟩
  · rw [heq]
    rcases h with rfl | h
    · exact ⟨q, List.mem_cons_self, rfl⟩
    rcases List.mem_cons.1 h with rfl | h
    · exact ⟨p, List.mem_cons_self, hkey⟩
    · exact ⟨q, List.mem_cons_of_mem p h, rfl⟩

theorem pairwise_prepend (hl : l.Pairwise fun p q => p.key < q.key) (hp : ∀ q ∈ l, p.key ≤ q.key) :
    (prepend p l).Pairwise fun p q => p.key < q.key := by
  cases l with
  | nil => exact List.pairwise_singleton _ p
  | cons q r =>
    have hq := List.pairwise_cons.1 hl
    rw [prepend]
    split
    · rename_i hkey
      refine List.pairwise_cons.2 ⟨fun q' hq' => ?_, hq.2⟩
      rw [hkey]
      exact hq.1 q' hq'
    · rename_i hkey
      have hle := hp q List.mem_cons_self
      have hlt : p.key < q.key := Decidable.byContradiction fun hnot =>
        hkey (List.le_antisymm hle (List.not_lt.1 hnot))
      refine List.pairwise_cons.2 ⟨fun q' hq' => ?_, hl⟩
      rcases List.mem_cons.1 hq' with rfl | hq'
      · exact hlt
      · exact List.lt_trans hlt (hq.1 q' hq')

theorem le_iff : le p q = true ↔ p.key ≤ q.key := decide_eq_true_iff

theorem pairwise_mergeSort_le (l : List Path) :
    (l.mergeSort le).Pairwise fun p q => p.key ≤ q.key := by
  refine (List.pairwise_mergeSort ?trans ?total l).imp le_iff.1
  case trans =>
    intro p q r hpq hqr
    exact le_iff.2 (List.le_trans (le_iff.1 hpq) (le_iff.1 hqr))
  case total =>
    intro p q
    rw [Bool.or_eq_true, le_iff, le_iff]
    exact List.le_total p.key q.key

/-- Putting the paths of a sorted list before each other leaves one of each key. -/
theorem foldr_prepend (h : l.Pairwise fun p q => p.key ≤ q.key) :
    (l.foldr prepend []).Pairwise (fun p q => p.key < q.key) ∧
      (∀ p ∈ l.foldr prepend [], p ∈ l) ∧
      ∀ p ∈ l, ∃ q ∈ l.foldr prepend [], q.key = p.key := by
  induction l with
  | nil => exact ⟨.nil, fun _ h => h, fun _ h => absurd h List.not_mem_nil⟩
  | cons p l ih =>
    obtain ⟨hp, hl⟩ := List.pairwise_cons.1 h
    obtain ⟨hsorted, hsub, hall⟩ := ih hl
    rw [List.foldr_cons]
    refine ⟨pairwise_prepend hsorted fun q hq => hp q (hsub q hq), fun q hq => ?_, fun q hq => ?_⟩
    · exact List.mem_cons.2 ((mem_of_mem_prepend hq).imp_right (hsub q))
    · rcases List.mem_cons.1 hq with rfl | hq
      · exact exists_mem_prepend (.inl rfl)
      · obtain ⟨q', hq', hkey⟩ := hall q hq
        obtain ⟨q'', hq'', hkey'⟩ := exists_mem_prepend (p := p) (.inr hq')
        exact ⟨q'', hq'', hkey'.trans hkey⟩

theorem pairwise_sortUnique (l : List Path) : (sortUnique l).Pairwise fun p q => p.key < q.key :=
  (foldr_prepend (pairwise_mergeSort_le l)).1

theorem mem_of_mem_sortUnique (h : p ∈ sortUnique l) : p ∈ l :=
  List.mem_mergeSort.1 ((foldr_prepend (pairwise_mergeSort_le l)).2.1 p h)

/-- Of each path, or of one that is the same in path order, one is kept. -/
theorem exists_mem_sortUnique (hp : p ∈ l) : ∃ q ∈ sortUnique l, q.key = p.key :=
  (foldr_prepend (pairwise_mergeSort_le l)).2.2 p (List.mem_mergeSort.2 hp)

/-- Paths that have different keys are all kept. -/
theorem mem_sortUnique_iff (hkey : ∀ p ∈ l, ∀ q ∈ l, p.key = q.key → p = q) :
    p ∈ sortUnique l ↔ p ∈ l := by
  refine ⟨mem_of_mem_sortUnique, fun hp => ?_⟩
  obtain ⟨q, hq, heq⟩ := exists_mem_sortUnique hp
  rw [← hkey q (mem_of_mem_sortUnique hq) p hp heq]
  exact hq

end Path

end FileCourier
