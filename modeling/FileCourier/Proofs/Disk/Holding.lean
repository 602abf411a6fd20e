import FileCourier.Proofs.Disk.Growing
import FileCourier.Proofs.FileTree

/-!
# Trees that stand on the disk

Below a place of the disk stands a tree of files (`Holding`). Making a directory or writing a file adds
it to the tree (`Holding.grown`, `Holding.written`). What is copied to a place where nothing stood
begins with nothing at all, and from then on a tree stands there (`Copied`): each directory that is
made is added to it (`Copied.addDirectory`).
-/

namespace FileCourier.Disk

open FileCourier.Path (Ordinary)

variable {d d' d'' d₁ : Disk} {root D : Place} {here : Path} {m : Nat} {above ns ms : List Bytes}
  {c s : Bytes} {t : FileTree}

/-- Below a place stand the files of a tree with their contents, the directories of the tree, and
nothing else. -/
structure Holding (d : Disk) (root : Place) (t : FileTree) : Prop where
  file : ∀ {ns s}, (∃ x, d.get? (root ++ ns) = some (.file x s)) ↔ (ns, s) ∈ t.files
  dir : ∀ {ns}, (∃ m, d.get? (root ++ ns) = some (.dir m)) ↔ t.IsDirectory ns
  noLink : ∀ {ns l}, d.get? (root ++ ns) ≠ some (.link l)

/-- Nothing stands where the tree has nothing. -/
theorem Holding.get?_eq_none (h : d.Holding root t) (hfile : ∀ s, (ns, s) ∉ t.files)
    (hdir : ¬t.IsDirectory ns) : d.get? (root ++ ns) = none := by
  cases he : d.get? (root ++ ns) with
  | none => rfl
  | some e =>
    cases e with
    | file x s => exact absurd (h.file.1 ⟨x, he⟩) (hfile s)
    | dir m => exact absurd (h.dir.1 ⟨m, he⟩) hdir
    | link l => exact absurd he h.noLink

/-- It does not matter in which order a tree is listed. -/
theorem Holding.congr {t' : FileTree} (h : d.Holding root t) (hfiles : ∀ f, f ∈ t.files ↔ f ∈ t'.files)
    (hdirectories : ∀ ns, ns ∈ t.emptyDirectories ↔ ns ∈ t'.emptyDirectories) :
    d.Holding root t' where
  file := h.file.trans (hfiles _)
  dir {ns} := by
    rw [h.dir, FileTree.IsDirectory, FileTree.IsDirectory]
    simp only [hfiles, hdirectories]
  noLink := h.noLink

theorem Creates.holding {d₁ : Disk} (h : Creates d here root d₁) (hd : d.Grounded) :
    d₁.Holding root .empty := by
  obtain ⟨m, hfind⟩ := h.find
  have hroot := get?_of_find hfind
  have hempty (ns : List Bytes) (e : Entry) (he : d₁.get? (root ++ ns) = some e) :
      ns = [] ∧ e = .dir m := by
    by_cases hne : ns = []
    · rw [hne, List.append_nil, hroot] at he
      exact ⟨hne, (Option.some.inj he).symm⟩
    · rw [h.get?_below hd hne] at he
      cases he
  refine ⟨⟨?_, fun hmem => absurd hmem List.not_mem_nil⟩, ⟨?_, ?_⟩, fun he => ?_⟩
  · rintro ⟨x, he⟩
    cases (hempty _ _ he).2
  · rintro ⟨m', he⟩
    exact .inl (hempty _ _ he).1
  · rintro (rfl | ⟨_, hmem, -⟩ | ⟨_, hmem, -⟩)
    · exact ⟨m, by rwa [List.append_nil]⟩
    · exact absurd hmem List.not_mem_nil
    · exact absurd hmem List.not_mem_nil
  · cases (hempty _ _ he).2

/-- Only directories are added where directories grow. -/
theorem Grown.file_iff {x : Bool} (h : Grown root ms d d') :
    d'.get? (root ++ ns) = some (.file x s) ↔ d.get? (root ++ ns) = some (.file x s) := by
  constructor
  · intro hfile
    rw [← hfile]
    refine (h.kept (.inr ?_)).symm
    rintro ⟨y, hy, hpre, heq⟩
    obtain ⟨m, hdir⟩ := h.dir hy hpre
    rw [heq, hdir] at hfile
    cases hfile
  · intro hfile
    rw [h.kept (.inl (ne_none_of_get? hfile)), hfile]

theorem Grown.dir_iff (h : Grown root ms d d') : (∃ m, d'.get? (root ++ ns) = some (.dir m)) ↔
    (∃ m, d.get? (root ++ ns) = some (.dir m)) ∨ ns ≠ [] ∧ ns <+: ms := by
  constructor
  · rintro ⟨m, hdir⟩
    by_cases hway : ns ≠ [] ∧ ns <+: ms
    · exact .inr hway
    · refine .inl ⟨m, ?_⟩
      rw [← hdir]
      refine (h.kept (.inr ?_)).symm
      rintro ⟨y, hy, hpre, heq⟩
      rw [List.append_cancel_left heq] at hway
      exact hway ⟨hy, hpre⟩
  · rintro (⟨m, hdir⟩ | ⟨hne, hpre⟩)
    · exact ⟨m, by rw [h.kept (.inl (ne_none_of_get? hdir)), hdir]⟩
    · exact h.dir hne hpre

/-- Directories that are made along names become part of the tree. -/
theorem Holding.grown (h : d.Holding root t) (hgrown : Grown root ms d d')
    (hlink : ∀ {q l}, root <+: q → d'.get? q ≠ some (.link l)) :
    d'.Holding root (t.addDirectory ms) where
  file {ns s} := by
    simp only [hgrown.file_iff]
    exact h.file
  dir {ns} := by
    rw [hgrown.dir_iff, h.dir, FileTree.isDirectory_addDirectory]
    refine or_congr_right' fun hns => ?_
    exact and_iff_right fun hnil => hns (.inl hnil)
  noLink := hlink (List.prefix_append root _)

/-- A file that is written where nothing stood becomes part of the tree, with the directories above
it. -/
theorem Holding.written (h : d.Holding root t) (hgrown : Grown root above d d')
    (hwithin : Within (· = root ++ (above ++ [c])) d' d'') {x : Bool}
    (hfile : d''.get? (root ++ (above ++ [c])) = some (.file x s))
    (hnone : d.get? (root ++ (above ++ [c])) = none)
    (hlink : ∀ {q l}, root <+: q → d''.get? q ≠ some (.link l)) :
    d''.Holding root (t.addFile (above ++ [c], s)) where
  file {ns s'} := by
    have hmem : (ns, s') ∈ (t.addFile (above ++ [c], s)).files ↔
        (ns, s') ∈ t.files ∨ ns = above ++ [c] ∧ s' = s := by
      rw [FileTree.addFile, List.mem_append, List.mem_singleton, Prod.mk.injEq]
    rw [hmem]
    by_cases hns : ns = above ++ [c]
    · subst hns
      rw [hfile]
      have hno : (above ++ [c], s') ∉ t.files := fun hin => by
        obtain ⟨x', hx'⟩ := h.file.2 hin
        rw [hnone] at hx'
        cases hx'
      constructor
      · rintro ⟨x', heq⟩
        cases heq
        exact .inr ⟨rfl, rfl⟩
      · rintro (hin | ⟨-, rfl⟩)
        · exact absurd hin hno
        · exact ⟨x, rfl⟩
    · rw [hwithin.get? fun heq => hns (List.append_cancel_left heq)]
      simp only [hgrown.file_iff, hns, false_and, or_false]
      exact h.file
  dir {ns} := by
    rw [FileTree.isDirectory_addFile]
    by_cases hns : ns = above ++ [c]
    · subst hns
      rw [hfile]
      have hno : ¬t.IsDirectory (above ++ [c]) := fun hdir => by
        obtain ⟨m, hm⟩ := h.dir.2 hdir
        rw [hnone] at hm
        cases hm
      simp [hno]
    · rw [hwithin.get? fun heq => hns (List.append_cancel_left heq), hgrown.dir_iff, h.dir]
      refine or_congr_right' fun hdir => ?_
      have hne : ns ≠ [] := fun hnil => hdir (.inl hnil)
      rw [List.prefix_concat_iff]
      simp [hns, hne]
  noLink := hlink (List.prefix_append root _)

/-! ## Copying to a place where nothing stood -/

/-- A tree stands below the place that was made for it, and nothing else has changed. -/
structure Stands (here : Path) (D : Place) (d₁ : Disk) (t : FileTree) (d : Disk) : Prop where
  rooted : Rooted here D d
  holding : d.Holding D t
  within : Within (Below D) d₁ d

/-- What a copy has left so far: the disk as it was, or a tree below the place that was made for
it. -/
inductive Copied (d : Disk) (here : Path) (D : Place) (d₁ : Disk) : FileTree → Disk → Prop
  | nothing : Copied d here D d₁ .empty d
  | stands {t : FileTree} {d' : Disk} : t.leaves ≠ [] → Stands here D d₁ t d' →
      Copied d here D d₁ t d'

/-- Names along which directories can be made behind a path. -/
structure Reachable (here : Path) (ns : List Bytes) : Prop where
  ne_nil : ns ≠ []
  ordinary : ∀ n ∈ ns, Ordinary n
  short : (here.along ns).text.length ≤ maxPath
  room : here.names.length + ns.length ≤ maxMissing

/-- Where no file of the tree is in the way, a directory can be made, with those above it. -/
theorem Stands.makeDirectories (h : Stands here D d₁ t d) (hns : Reachable here ns)
    (hfile : ∀ f ∈ t.files, ¬f.1 <+: ns) :
    ∃ d', d.makeDirectories (here.along ns) = (.ok (), d') ∧ Grown D ns d d' ∧ Rooted here D d' ∧
      Within (Below D) d₁ d' := by
  obtain ⟨d', hmade, hgrown, hrooted, hwithin⟩ := h.rooted.makeDirectories hns.ordinary hns.ne_nil
    hns.short (Nat.le_of_add_left_le hns.room) fun ms hms x s he =>
      hfile (ms, s) (h.holding.file.1 ⟨x, he⟩) hms
  exact ⟨d', hmade, hgrown, hrooted, h.within.trans hwithin⟩

namespace Copied

theorem stands_or_nothing (h : Copied d here D d₁ t d') :
    (t.leaves ≠ [] ∧ Stands here D d₁ t d') ∨ t.leaves = [] ∧ d' = d := by
  cases h with
  | nothing => exact .inr ⟨rfl, rfl⟩
  | stands hsome h => exact .inl ⟨hsome, h⟩

/-- The order in which the directories were made does not matter. -/
theorem congr {files : List (List Bytes × Bytes)} {made directories : List (List Bytes)}
    (h : Copied d here D d₁ ⟨files, made⟩ d') (hiff : ∀ ns, ns ∈ made ↔ ns ∈ directories) :
    Copied d here D d₁ ⟨files, directories⟩ d' := by
  have hleaves (ns : List Bytes) :
      ns ∈ (FileTree.mk files made).leaves ↔ ns ∈ (FileTree.mk files directories).leaves := by
    simp only [FileTree.leaves, List.mem_append, hiff]
  rcases h.stands_or_nothing with ⟨hsome, h⟩ | ⟨hnil, rfl⟩
  · obtain ⟨ns, hns⟩ := List.exists_mem_of_ne_nil _ hsome
    exact .stands (List.ne_nil_of_mem ((hleaves ns).1 hns))
      ⟨h.rooted, h.holding.congr (fun _ => Iff.rfl) hiff, h.within⟩
  · have hnone : FileTree.mk files directories = .empty := by
      have hnil' : (FileTree.mk files directories).leaves = [] :=
        List.eq_nil_iff_forall_not_mem.2 fun ns hns => by
          rw [← hleaves, hnil] at hns
          exact List.not_mem_nil hns
      obtain ⟨hfiles, hdirectories⟩ := List.append_eq_nil_iff.1 hnil'
      exact congrArg₂ FileTree.mk (List.map_eq_nil_iff.1 hfiles) hdirectories
    exact hnone ▸ .nothing

/-- The first directory that is made makes the place itself; what comes of it is the same as if that had
stood before. -/
theorem makeDirectories (h : Copied d here D d₁ t d') (hd : d.Grounded)
    (hcreates : Creates d here D d₁) (hns : Reachable here ns) (hfile : ∀ f ∈ t.files, ¬f.1 <+: ns) :
    ∃ d₀ d'', d₀.Holding D t ∧ d'.makeDirectories (here.along ns) = (.ok (), d'') ∧
      Grown D ns d₀ d'' ∧ Rooted here D d'' ∧ Within (Below D) d₁ d'' := by
  cases h with
  | nothing =>
    have hstands : Stands here D d₁ .empty d₁ :=
      ⟨hcreates.rooted hd, hcreates.holding hd, .refl _ d₁⟩
    obtain ⟨d'', hmade, hrest⟩ := hstands.makeDirectories hns hfile
    obtain ⟨-, -, hsame⟩ :=
      hcreates.makeDirectories_along hd hns.ordinary hns.ne_nil hns.short hns.room
    exact ⟨d₁, d'', hstands.holding, hsame.trans hmade, hrest⟩
  | stands _ h =>
    obtain ⟨d'', hmade, hrest⟩ := h.makeDirectories hns hfile
    exact ⟨d', d'', h.holding, hmade, hrest⟩

/-- A directory that is made is added to the tree. -/
theorem addDirectory (h : Copied d here D d₁ t d') (hd : d.Grounded)
    (hcreates : Creates d here D d₁) (hns : Reachable here ns) (hfile : ∀ f ∈ t.files, ¬f.1 <+: ns) :
    ∃ d'', d'.makeDirectories (here.along ns) = (.ok (), d'') ∧
      Copied d here D d₁ (t.addDirectory ns) d'' := by
  obtain ⟨d₀, d'', hholding, hmade, hgrown, hrooted, hwithin⟩ :=
    h.makeDirectories hd hcreates hns hfile
  refine ⟨d'', hmade, .stands ?_ ⟨hrooted, hholding.grown hgrown hrooted.site.noLink, hwithin⟩⟩
  exact List.append_ne_nil_of_right_ne_nil _ (List.append_ne_nil_of_right_ne_nil _
    (List.cons_ne_nil ns []))

/-- What stood before stands as it was. -/
theorem grows (h : Copied d here D d₁ t d') (hd : d.Grounded) (hcreates : Creates d here D d₁) :
    Grows d d' := by
  cases h with
  | nothing => exact .refl d
  | stands _ h =>
    obtain ⟨hgrows, -⟩ := hcreates.grows hd
    refine ⟨h.within.cwd.trans hgrows.cwd, fun {q e} hq => ?_⟩
    refine (h.within.get? ?_).trans (hgrows.get? hq)
    -- Nothing stood below the place when it was made.
    rintro ⟨⟨ns, rfl⟩, hne⟩
    have hstood := hgrows.get? hq
    rw [hcreates.get?_below hd fun hnil => hne (by rw [hnil, List.append_nil])] at hstood
    cases hstood

end Copied

end FileCourier.Disk
