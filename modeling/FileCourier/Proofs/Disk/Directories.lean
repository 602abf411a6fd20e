import FileCourier.Proofs.Disk.Site

/-!
# Directories below a directory

Making a directory with all that is missing above it walks up the path until it comes to a directory.
Below the root of a site it gets to the root at the latest, so nothing is made but below the root
(`Site.makeDirectories`).
-/

namespace FileCourier.Disk

open FileCourier.Path (Proper Reads)

variable {d d' : Disk} {absolute : Bool} {root q : Place} {names ns : List Bytes} {path : Path}
  {l : List Path} {n room : Nat}

/-- The places strictly below a place. -/
def Below (root q : Place) : Prop := root <+: q ∧ q ≠ root

theorem below_append (root : Place) (hne : ns ≠ []) : Below root (root ++ ns) :=
  ⟨List.prefix_append root ns, fun heq => hne (by simpa using heq)⟩

/-- The path of a directory that exists leads there, if it can be looked up. -/
theorem Site.find_cases (h : Site absolute names root d) (hp : Reads absolute names path)
    (hne : path.isEmpty = false) :
    (∃ m, d.find path = .ok (.at root (.dir m))) ∨ d.find path = .error .tooLong := by
  obtain ⟨m, hfollow⟩ := h.follow_eq
  have hroute : route path.text = names := by
    have hends : (Path.mk path.text).endsInSlash = false := hp.endsInSlash_eq
    rw [route, hends]
    exact (List.append_nil _).trans hp.names_eq
  have horigin : Disk.origin d.cwd path.text = d.base absolute := by
    rw [Disk.origin, show (Path.mk path.text).isAbsolute = absolute from hp.isAbsolute_eq, base]
  rw [find, systemText_of_reads hp, locate, show path.text.isEmpty = false from hne, hroute, horigin]
  rw [if_neg (by decide)]
  split
  · exact .inr rfl
  · exact .inl ⟨m, hfollow⟩

theorem Behind.filename (h : Behind absolute names ns path) : Proper path.filename := by
  obtain ⟨above, c, rfl⟩ : ∃ above c, ns = above ++ [c] :=
    ⟨_, _, (List.dropLast_concat_getLast h.ne_nil).symm⟩
  rw [Path.filename, h.reads.endsInSlash_eq, h.reads.names_eq, ← List.append_assoc]
  simpa using h.proper c (by simp)

/-- All that is missing on the way to a path behind a site is behind it too. -/
theorem Site.behind_of_missing (h : Site absolute names root d) (hp : Behind absolute names ns path)
    (hmissing : d.missing n room path = .ok l) : ∀ p ∈ l, ∃ ns, Behind absolute names ns p := by
  induction n generalizing path ns l room with
  | zero => cases hmissing
  | succ n ih =>
    have hname := hp.filename
    obtain ⟨above, c, rfl⟩ : ∃ above c, ns = above ++ [c] :=
      ⟨_, _, (List.dropLast_concat_getLast hp.ne_nil).symm⟩
    have hreads := hp.reads
    rw [← List.append_assoc] at hreads
    have hthis : ∀ p ∈ [path], ∃ ns, Behind absolute names ns p := fun p hp' =>
      ⟨_, List.mem_singleton.1 hp' ▸ hp⟩
    -- Only a parent that is behind the site as well is climbed to.
    have climb (hempty : path.parent.isEmpty = false) (habove : above ≠ [])
        (hclimb : (if path.parent = path then pure [path]
          else do return [path] ++ (← d.missing n (room - [path].length) path.parent)) =
            Except.ok l) :
        ∀ p ∈ l, ∃ ns, Behind absolute names ns p := by
      split at hclimb
      · cases hclimb
        exact hthis
      · cases hrest : d.missing n (room - [path].length) path.parent with
        | error e =>
          rw [hrest] at hclimb
          cases hclimb
        | ok rest =>
          rw [hrest] at hclimb
          cases hclimb
          have hparent : Behind absolute names above path.parent :=
            ⟨hreads.parent hempty, habove, fun c' hc' => hp.proper c' (List.mem_append_left _ hc')⟩
          exact List.forall_mem_cons.2 ⟨⟨_, hp⟩, ih hparent hrest⟩
    simp only [Disk.missing, hname.ne_dot, hname.ne_dotDot, or_self, if_false] at hmissing
    split at hmissing
    · cases hmissing
    cases hempty : path.parent.isEmpty with
    | true =>
      rw [hempty, if_pos rfl] at hmissing
      cases hmissing
      exact hthis
    | false =>
      rw [hempty, if_neg (by decide)] at hmissing
      by_cases habove : above = []
      · subst habove
        have hroot : Reads absolute names path.parent := by
          simpa using hreads.parent hempty
        rcases h.find_cases hroot hempty with ⟨m, hfind⟩ | hfind
        · rw [hfind] at hmissing
          cases hmissing
          exact hthis
        · rw [hfind] at hmissing
          cases hmissing
      · split at hmissing
        · cases hmissing
          exact hthis
        · cases hmissing
        · exact climb hempty habove hmissing
        · exact climb hempty habove hmissing
        · exact climb hempty habove hmissing
        · cases hmissing

theorem Site.makeEach (h : Site absolute names root d)
    (hl : ∀ p ∈ l, ∃ ns, Behind absolute names ns p) :
    Site absolute names root (d.makeEach l).2 ∧ Within (Below root) d (d.makeEach l).2 := by
  induction l generalizing d with
  | nil => exact ⟨h, .refl _ d⟩
  | cons path l ih =>
    obtain ⟨ns, hp⟩ := hl path List.mem_cons_self
    have hrest := fun p hp' => hl p (List.mem_cons_of_mem _ hp')
    rw [Disk.makeEach]
    split
    · rename_i d₁ hmake
      obtain ⟨-, rfl, h₁⟩ := h.makeDirectory hp hmake
      obtain ⟨h', hwithin⟩ := ih h₁ hrest
      exact ⟨h', (within_put _ (below_append root hp.ne_nil) d _).trans hwithin⟩
    · split
      · exact ih h hrest
      · exact ⟨h, .refl _ d⟩
    · exact ⟨h, .refl _ d⟩

/-- However it ends, nothing is made but below the root. -/
theorem Site.makeDirectories (h : Site absolute names root d)
    (hreads : Reads absolute (names ++ ns) path) (hns : ∀ c ∈ ns, Proper c) :
    Site absolute names root (d.makeDirectories path).2 ∧
      Within (Below root) d (d.makeDirectories path).2 := by
  have same : Site absolute names root d ∧ Within (Below root) d d := ⟨h, .refl _ d⟩
  rw [Disk.makeDirectories]
  cases hempty : path.isEmpty with
  | true => exact same
  | false =>
    rw [if_neg (by decide)]
    by_cases hnil : ns = []
    · rw [hnil, List.append_nil] at hreads
      rcases h.find_cases hreads hempty with ⟨m, hfind⟩ | hfind
      · rw [hfind]
        exact same
      · rw [hfind]
        exact same
    · rw [hreads.endsInSlash_eq, if_neg (by decide)]
      cases hmissing : d.missing (path.text.length + 1) maxMissing path with
      | error e => split <;> exact same
      | ok l =>
        have hmade := h.makeEach fun p hp =>
          h.behind_of_missing ⟨hreads, hnil, hns⟩ hmissing p (List.mem_reverse.1 hp)
        split
        · exact same
        · exact same
        · exact hmade
        · exact hmade
        · exact hmade
        · exact same

/-! ## Actions that stay below the root -/

/-- A site whose root and what is not below it stay as they are. -/
def siteGuard (absolute : Bool) (names : List Bytes) (root : Place) : Action.Guard Disk where
  holds := Site absolute names root
  changes := Within (Below root)
  refl := .refl _
  trans := .trans

theorem guarded_makeDirectories (hreads : Reads absolute (names ++ ns) path)
    (hns : ∀ c ∈ ns, Proper c) :
    Action.Guarded (siteGuard absolute names root) (Chores.makeDirectories path) := by
  intro d h
  have hmade := Site.makeDirectories h hreads hns
  rw [Chores.makeDirectories]
  generalize d.makeDirectories path = made at hmade
  obtain ⟨result, d'⟩ := made
  cases result with
  | error e => exact ⟨hmade.2, nofun⟩
  | ok u => exact ⟨hmade.2, fun _ _ => hmade.1⟩

theorem guarded_prepareParent (hreads : path.isEmpty = false → Reads absolute (names ++ ns) path)
    (hns : ∀ c ∈ ns, Proper c) (make : Bool) :
    Action.Guarded (siteGuard absolute names root) (Chores.prepareParent path make) := by
  intro d h
  rw [Chores.prepareParent, Action.get_bind]
  split
  · exact Action.guarded_pure true d h
  · rename_i hmissing
    have hempty : path.isEmpty = false := by
      rw [Bool.or_eq_true, not_or] at hmissing
      exact Bool.eq_false_iff.2 hmissing.1
    split
    · exact Action.guarded_pure false d h
    · exact (guarded_makeDirectories (hreads hempty) hns).map _ d h

/-- A file is opened at its place below the root. -/
theorem Site.openForWriting_below (h : Site absolute names root d) (hp : Behind absolute names ns path)
    (hopen : d.openForWriting path = .ok (q, d')) :
    q = root ++ ns ∧ Site absolute names root d' ∧ Within (· = root ++ ns) d d' := by
  obtain ⟨spot, x, hfind, rfl, rfl, hold⟩ := exists_of_openForWriting hopen
  have hfollow := follow_of_find hp.reads hfind
  have hplace := h.place_eq hp.proper hp.ne_nil hfollow
  have hne : spot.place ≠ [] := hplace ▸ Site.place_ne_nil hp.ne_nil
  have hbelow : root <+: spot.place := hplace ▸ List.prefix_append root ns
  refine ⟨hplace, h.put_file hbelow hne (h.parent_of_follow hfollow) (fun m hm => ?_) x [],
    within_put (· = root ++ ns) hplace d _⟩
  obtain ⟨x, t, hfile⟩ := hold _ hm
  cases hfile

end FileCourier.Disk
