import FileCourier.Proofs.Cache.Course

/-!
# Makers that take turns on one disk

A crew of makers works on one disk, and a schedule says which of them takes the next step. When no
file is on the way of two makers, each is on its course whatever the schedule (`Steady.turns`): so no
call for a place in the cache fails, each returns after so many steps of its own, and finds its
directory from then on (`destinations_by_turns`). Two makers that come by the same file can get in each
other's way (`late_removal_fails_another`).
-/

namespace FileCourier.Making

open FileCourier.Path (Ordinary visited)

variable {c : Cache} {root : Path} {P : Place} {d before : Disk} {m : Making} {ns : List Bytes}
  {ways : List (List Bytes)} {n : Nat}

/-- Makers at work on one disk. -/
structure Crew where
  makers : List Making
  disk : Disk
  deriving DecidableEq, Repr

namespace Crew

variable {crew : Crew} {i j : Nat}

/-- One maker takes a step. -/
def turn (root : Path) (crew : Crew) (i : Nat) : Crew :=
  match crew.makers[i]? with
  | none => crew
  | some m => ⟨crew.makers.set i (step root m crew.disk).1, (step root m crew.disk).2⟩

/-- The makers take turns as the schedule says. -/
def turns (root : Path) (crew : Crew) (schedule : List Nat) : Crew := schedule.foldl (turn root) crew

/-- A maker that is alone takes all turns. -/
theorem turns_alone (root : Path) (n : Nat) (m : Making) (d : Disk) :
    turns root ⟨[m], d⟩ (List.replicate n 0) = ⟨[(run root n m d).1], (run root n m d).2⟩ := by
  induction n generalizing m d with
  | zero => rfl
  | succ n ih => exact ih (step root m d).1 (step root m d).2

/-- All makers are on their courses, and each file stands where one stood before. -/
structure Steady (c : Cache) (P : Place) (before : Disk) (ways : List (List Bytes)) (crew : Crew) :
    Prop where
  site : c.At P crew.disk
  files : ∀ {q x t}, crew.disk.get? q = some (.file x t) → before.get? q = some (.file x t)
  length : crew.makers.length = ways.length
  course : ∀ {i : Nat} {ns : List Bytes} {m : Making}, ways[i]? = some ns → crew.makers[i]? = some m → OnCourse c P ns crew.disk m

/-- No two of the makers come by the same file. -/
def Apart (P : Place) (before : Disk) (ways : List (List Bytes)) : Prop :=
  ways.Pairwise fun a b => ∀ s ∈ visited a, s ∈ visited b →
    ∀ x t, before.get? (P ++ s) ≠ some (.file x t)

theorem Apart.of_ne {a b : List Bytes} (h : Apart P before ways) (hij : i ≠ j)
    (ha : ways[i]? = some a) (hb : ways[j]? = some b) {s : List Bytes} (hs : s ∈ visited a)
    (hs' : s ∈ visited b) (x : Bool) (t : Bytes) : before.get? (P ++ s) ≠ some (.file x t) := by
  obtain ⟨hi, rfl⟩ := List.getElem?_eq_some_iff.1 ha
  obtain ⟨hj, rfl⟩ := List.getElem?_eq_some_iff.1 hb
  rcases Nat.lt_or_gt_of_ne hij with hlt | hlt
  · exact List.pairwise_iff_getElem.1 h i j hi hj hlt s hs hs' x t
  · exact List.pairwise_iff_getElem.1 h j i hj hi hlt s hs' hs x t

/-- A turn leaves every maker on its course, and the one that took it with fewer steps to go. -/
theorem Steady.turn (h : Steady c P before ways crew) (hwalk : ∀ ns ∈ ways, Walkable c ns)
    (hapart : Apart P before ways) (j : Nat) : Steady c P before ways (crew.turn c.root j) ∧
      ∀ m, crew.makers[i]? = some m → ∃ m', (crew.turn c.root j).makers[i]? = some m' ∧
        m'.left ≤ m.left - if j = i then 1 else 0 := by
  rw [Crew.turn]
  cases hj : crew.makers[j]? with
  | none =>
    refine ⟨h, fun m hm => ⟨m, hm, ?_⟩⟩
    have hji : j ≠ i := by
      rintro rfl
      cases hj.symm.trans hm
    rw [if_neg hji]
    exact Nat.le_refl _
  | some mj =>
    obtain ⟨hlength, -⟩ := List.getElem?_eq_some_iff.1 hj
    obtain ⟨way, hway⟩ : ∃ way, ways[j]? = some way :=
      ⟨_, List.getElem?_eq_getElem (h.length ▸ hlength)⟩
    have hstep := (h.course hway hj).step (hwalk way (List.mem_of_getElem? hway)) h.site
    dsimp only
    refine ⟨⟨hstep.touch.site h.site, fun hfile => h.files (hstep.touch.file_before hfile), ?_, ?_⟩, ?_⟩
    · rw [List.length_set]
      exact h.length
    · intro k ns m hns hm
      by_cases hjk : j = k
      · subst hjk
        rw [List.getElem?_set_self hlength] at hm
        cases hm
        obtain rfl : way = ns := Option.some.inj (hway.symm.trans hns)
        exact hstep.course
      · rw [List.getElem?_set_ne hjk] at hm
        refine (h.course hns hm).of_touch hstep.touch fun s hs hs' x t hfile => ?_
        exact hapart.of_ne (Ne.symm hjk) hns hway hs hs' x t (h.files hfile)
    · intro m hm
      by_cases hji : j = i
      · subst hji
        obtain rfl : mj = m := Option.some.inj (hj.symm.trans hm)
        refine ⟨_, List.getElem?_set_self hlength, ?_⟩
        rw [if_pos rfl]
        by_cases hleft : mj.left = 0
        · obtain rfl := (h.course hway hj).eq_finished hleft
          exact Nat.zero_le _
        · exact Nat.le_sub_one_of_lt (hstep.left hleft)
      · refine ⟨m, by rwa [List.getElem?_set_ne hji], ?_⟩
        rw [if_neg hji]
        exact Nat.le_refl _

/-- Whatever the schedule, every maker stays on its course, and has so many steps less to go as it
has had turns. -/
theorem Steady.turns (h : Steady c P before ways crew) (hwalk : ∀ ns ∈ ways, Walkable c ns)
    (hapart : Apart P before ways) (schedule : List Nat) :
    Steady c P before ways (crew.turns c.root schedule) ∧
      ∀ m, crew.makers[i]? = some m → ∃ m', (crew.turns c.root schedule).makers[i]? = some m' ∧
        m'.left ≤ m.left - schedule.count i := by
  induction schedule generalizing crew with
  | nil => exact ⟨h, fun m hm => ⟨m, hm, Nat.le_refl _⟩⟩
  | cons j schedule ih =>
    obtain ⟨hsound, hleft⟩ := h.turn hwalk hapart (i := i) j
    obtain ⟨hsound', hleft'⟩ := ih hsound
    refine ⟨hsound', fun m hm => ?_⟩
    obtain ⟨m₁, hm₁, hle⟩ := hleft m hm
    obtain ⟨m', hm', hle'⟩ := hleft' m₁ hm₁
    refine ⟨m', hm', ?_⟩
    rw [List.count_cons, beq_eq_decide]
    by_cases hji : j = i
    · simp only [hji, decide_true, if_true] at hle ⊢
      omega
    · simp only [hji, decide_false, if_false, Bool.false_eq_true] at hle ⊢
      omega

end Crew

end FileCourier.Making

namespace FileCourier.Cache

open Disk (maxPath)
open Making (Crew Walkable start stepsEach)
open FileCourier.Path (Ordinary Reads visited wind)

variable {c : Cache} {env name : Bytes} {d d' : Disk} {P : Place} {k : Nat}
  {calls : List (Bytes × Bytes)}

/-! ## Where a call makes directories -/

/-- The place of a file, seen from the root of the cache. -/
def placeOf (env name : Bytes) : Path := Path.mk "files" / Path.mk env / Path.mk (VirtualPath.dropSlashes name)

/-- The components from the root of the cache to the directory of a file. -/
def aboveNames (env name : Bytes) : List Bytes := (placeOf env name).aboveLast

/-- The directory of a file lies in the cache, and its names and its path are not too long. -/
structure Admits (c : Cache) (env name : Bytes) : Prop where
  relative : (Path.mk env).isAbsolute = false
  inside : (wind (aboveNames env name)).isSome = true
  short : (c.filePath env name).parent.text.length ≤ maxPath

/-- A file beside the cache. -/
def fileBeside : Disk := ⟨[(["cache"], .dir Disk.openMode), (["x"], .file false "old")], []⟩

/-- A file outside the cache is not replaced, so a path that leads there may fail. -/
example : ((Cache.mk "cache").destination "base" "../../../x/y" fileBeside).1 =
    .error (.store (.noDirectory "cache/files/base/../../../x")) := by decide +kernel

theorem filePath_eq (c : Cache) (henv : (Path.mk env).isAbsolute = false) (name : Bytes) :
    c.filePath env name = c.root / placeOf env name := by
  have hfiles : (Path.mk "files").isAbsolute = false := rfl
  have hjoined : (Path.mk "files" / Path.mk env).isAbsolute = false :=
    (Path.isAbsolute_join _ henv).trans hfiles
  have hne : (Path.mk "files" / Path.mk env).text ≠ [] :=
    Path.text_join_ne_nil_left (List.cons_ne_nil _ _) _
  rw [placeOf, ← Path.join_assoc c.root hjoined hne (isAbsolute_dropSlashes name),
    ← Path.join_assoc c.root hfiles (List.cons_ne_nil _ _) henv]
  rfl

theorem names_placeOf (henv : (Path.mk env).isAbsolute = false) (name : Bytes) :
    (placeOf env name).names =
      ("files" : Bytes) ::
        ((Path.mk env).names ++ (Path.mk (VirtualPath.dropSlashes name)).names) := by
  rw [placeOf, Path.names_join _ (isAbsolute_dropSlashes name), Path.names_join _ henv,
    ordinary_files.names]
  rfl

/-- The directory of a file lies below that of all files. -/
theorem aboveNames_ne_nil (henv : (Path.mk env).isAbsolute = false) (name : Bytes) :
    aboveNames env name ≠ [] := by
  have hnames := names_placeOf henv name
  rw [aboveNames, Path.aboveLast]
  cases hends : (placeOf env name).endsInSlash with
  | true =>
    rw [if_pos rfl, hnames]
    exact List.cons_ne_nil _ _
  | false =>
    rw [if_neg Bool.false_ne_true, hnames]
    have hbelow : (Path.mk env).names ++ (Path.mk (VirtualPath.dropSlashes name)).names ≠ [] := by
      intro hnil
      obtain ⟨henvNil, hnameNil⟩ := List.append_eq_nil_iff.1 hnil
      have empty {s : Bytes} (hs : (Path.mk s).names = []) (hrel : (Path.mk s).isAbsolute = false) :
          s = [] := by
        by_contra hne
        have habsolute := Path.isAbsolute_of_names_nil hs hne
        rw [hrel] at habsolute
        cases habsolute
      -- What is joined from no names ends in a slash.
      rw [placeOf, empty henvNil henv, empty hnameNil (isAbsolute_dropSlashes name)] at hends
      exact absurd hends (by decide)
    obtain ⟨n, rest, hcons⟩ := List.exists_cons_of_ne_nil hbelow
    rw [hcons, List.dropLast_cons_cons]
    exact List.cons_ne_nil _ _

/-- The directory of a file is read along its components behind the root of the cache. -/
theorem Admits.reads_directory (h : c.Admits env name) (hnul : 0 ∉ c.root.text) :
    Reads c.root.isAbsolute (c.root.names ++ aboveNames env name) (c.filePath env name).parent := by
  have hrelative : (placeOf env name).isAbsolute = false :=
    (Path.isAbsolute_join _ (isAbsolute_dropSlashes name)).trans (Path.isAbsolute_join _ h.relative)
  obtain ⟨s, hs⟩ := Option.isSome_iff_exists.1 h.inside
  rw [filePath_eq c h.relative]
  exact reads_parent_below hnul hrelative (aboveNames_ne_nil h.relative name) hs

theorem Admits.reads_parent (h : c.Admits env name) (hroot : ∀ n ∈ c.root.names, Ordinary n) :
    Reads c.root.isAbsolute (c.root.names ++ aboveNames env name) (c.filePath env name).parent :=
  h.reads_directory (Path.no_nul_of_names hroot)

theorem Admits.walkable (h : c.Admits env name) (hroot : ∀ n ∈ c.root.names, Ordinary n)
    (htext : c.root.text ≠ []) : Walkable c (aboveNames env name) :=
  walkable_of_reads hroot htext (Option.isSome_iff_exists.1 h.inside) (h.reads_parent hroot)
    (List.prefix_refl _) h.short

/-! ## Calls -/

/-- What a call for a place has returned, if it has. -/
def returned (p : Path) : Making → Option (Except Fault Path)
  | .finished => some (.ok p)
  | .failed fault => some (.error fault)
  | .at _ _ _ => none

/-- Calls for the places of files, all at their start on one disk. -/
def calling (c : Cache) (calls : List (Bytes × Bytes)) (d : Disk) : Crew :=
  ⟨calls.map fun call => start (c.filePath call.1 call.2).parent, d⟩

/-- So many turns are enough for a call. -/
def turnsFor (c : Cache) (env name : Bytes) : Nat :=
  stepsEach * (c.filePath env name).parent.components.length

/-- A call that is alone returns what asking for the destination gives. -/
theorem destination_of_returned (h : (c.filePath env name).parent.isEmpty = false)
    {result : Except Fault Path} {made : Making}
    (hmade : (c.calling [(env, name)] d).turns c.root
      (List.replicate (c.turnsFor env name) 0) = ⟨[made], d'⟩)
    (hreturned : returned (c.filePath env name) made = some result) :
    c.destination env name d = (result, d') := by
  rw [calling, List.map_singleton, Making.Crew.turns_alone] at hmade
  have hcomplete : Making.complete c.root (c.filePath env name).parent d = (made, d') := by
    injection hmade with hmakers hdisk
    exact Prod.ext (List.singleton_inj.1 hmakers) hdisk
  rw [destination, prepare_apply, h, if_neg Bool.false_ne_true, ensureDirectory, hcomplete]
  cases made with
  | finished | failed =>
    cases hreturned
    rfl
  | «at» => cases hreturned

/-- Calls begin on their courses. -/
theorem steady_calling (hsite : c.At P d) (hroot : ∀ n ∈ c.root.names, Ordinary n)
    (hcalls : ∀ call ∈ calls, c.Admits call.1 call.2) :
    (c.calling calls d).Steady c P d (calls.map fun call => aboveNames call.1 call.2) := by
  refine ⟨hsite, id, by rw [calling, List.length_map, List.length_map], fun {i ns m} hns hm => ?_⟩
  rw [calling, List.getElem?_map] at hm
  rw [List.getElem?_map] at hns
  cases hcall : calls[i]? with
  | none =>
    rw [hcall] at hm
    cases hm
  | some call =>
    rw [hcall] at hns hm
    cases hns
    cases hm
    exact Making.onCourse_start hsite ((hcalls call (List.mem_of_getElem? hcall)).reads_parent hroot)

/-- Calls that take turns, no two of which come by the same stale file, do not fail, return when they
have had turns enough, and find the directory of their file from then on. -/
theorem destinations_by_turns (htree : d.IsTree) (hcache : d.find c.root = .ok (.at P (.dir k)))
    (hlink : ∀ q t, P <+: q → d.get? q ≠ some (.link t))
    (hroot : ∀ n ∈ c.root.names, Ordinary n) (hcalls : ∀ call ∈ calls, c.Admits call.1 call.2)
    (hapart : calls.Pairwise fun a b => ∀ s ∈ visited (aboveNames a.1 a.2),
      s ∈ visited (aboveNames b.1 b.2) → ∀ x t, d.get? (P ++ s) ≠ some (.file x t))
    (schedule : List Nat) {i : Nat} (hcall : calls[i]? = some (env, name)) :
    ∃ made, ((c.calling calls d).turns c.root schedule).makers[i]? = some made ∧
      (∀ fault, returned (c.filePath env name) made ≠ some (.error fault)) ∧
      (c.turnsFor env name ≤ schedule.count i →
        returned (c.filePath env name) made = some (.ok (c.filePath env name))) ∧
      (returned (c.filePath env name) made = some (.ok (c.filePath env name)) →
        ((c.calling calls d).turns c.root schedule).disk.isDirectory
          (c.filePath env name).parent = true) := by
  have hsite : c.At P d := ⟨htree, hlink _ _, Disk.way_of_find htree hroot hcache⟩
  have htext : c.root.text ≠ [] := Disk.text_ne_nil_of_find (Path.no_nul_of_names hroot) hcache
  have hadmits := hcalls _ (List.mem_of_getElem? hcall)
  have hwalk : ∀ ns ∈ calls.map fun call => aboveNames call.1 call.2, Walkable c ns := by
    intro ns hns
    obtain ⟨call, hmem, rfl⟩ := List.mem_map.1 hns
    exact (hcalls call hmem).walkable hroot htext
  obtain ⟨hsteady, hleft⟩ := (steady_calling hsite hroot hcalls).turns hwalk
    (List.pairwise_map.2 hapart) schedule (i := i)
  have hreads := hadmits.reads_parent hroot
  obtain ⟨made, hmade, hsteps⟩ := hleft (start (c.filePath env name).parent) (by
    rw [calling, List.getElem?_map, hcall]
    rfl)
  have hcourse : Making.OnCourse c P (aboveNames env name)
      ((c.calling calls d).turns c.root schedule).disk made :=
    hsteady.course (by rw [List.getElem?_map, hcall]; rfl) hmade
  refine ⟨made, hmade, fun fault hfault => ?_, fun hturns => ?_, fun hreturned => ?_⟩
  · cases hcourse with
    | finished => cases hfault
    | slash | before | looks | works => cases hfault
  · have hstart : (start (c.filePath env name).parent).left ≤ c.turnsFor env name :=
      Nat.le_of_eq (Making.left_next _ _)
    rw [hcourse.eq_finished (by omega)]
    rfl
  · cases hcourse with
    | slash | before | looks | works => cases hreturned
    | finished hstood =>
      obtain ⟨s, hs⟩ := Option.isSome_iff_exists.1 hadmits.inside
      have hne := List.append_ne_nil_of_right_ne_nil c.root.names
        (aboveNames_ne_nil hadmits.relative name)
      obtain ⟨k', hfind⟩ := hsteady.site.find_stood hreads (hreads.text_ne_nil hne) hadmits.short
        hstood hs
      rw [Disk.isDirectory, Disk.entryAt?, hfind]

/-- A cache in which an old file stands where directories are asked for. -/
def staleCache (stale : Bytes) : Disk :=
  ⟨[(["cache"], .dir Disk.openMode), (["cache", "files"], .dir Disk.ownerMode),
    (["cache", "files", "base"], .dir Disk.ownerMode),
    (["cache", "files", "base", stale], .file false "old")], []⟩

/-- Two calls take turns, one of them past an old file. -/
theorem destinations_by_turns_alternately :
    (Cache.mk "cache").Admits "base" "a/x" ∧ (Cache.mk "cache").Admits "base" "a/../c/y" ∧
    ∃ made, (((Cache.mk "cache").calling [("base", "a/x"), ("base", "a/../c/y")]
        (staleCache "c")).turns "cache" (List.replicate 30 [0, 1]).flatten).makers[1]? = some made ∧
      returned "cache/files/base/a/../c/y" made = some (.ok "cache/files/base/a/../c/y") := by
  have hfirst : (Cache.mk "cache").Admits "base" "a/x" := ⟨by decide, by decide, by decide⟩
  have hsecond : (Cache.mk "cache").Admits "base" "a/../c/y" := ⟨by decide, by decide, by decide⟩
  have htree : (staleCache "c").IsTree := Disk.isTree_of_entries (by decide)
  have hlink : ∀ q t, (["cache"] : Place) <+: q → (staleCache "c").get? q ≠ some (.link t) :=
    fun q t _ => Disk.get?_ne_link_of_entries (by decide) q t
  have hdirs : ∀ s ∈ visited (aboveNames "base" "a/x"),
      ((staleCache "c").get? ((["cache"] : Place) ++ s)).all Disk.Entry.isDir = true := by decide
  have hcalls : ∀ call ∈ [(("base" : Bytes), ("a/x" : Bytes)), ("base", "a/../c/y")],
      (Cache.mk "cache").Admits call.1 call.2 := by
    intro call hcall
    rcases List.mem_cons.1 hcall with rfl | hcall
    · exact hfirst
    · rw [List.mem_singleton.1 hcall]
      exact hsecond
  have hfind : (staleCache "c").find (Cache.mk "cache").root =
      .ok (.at ["cache"] (.dir Disk.openMode)) := by decide
  obtain ⟨made, hmade, -, hreturned, -⟩ := destinations_by_turns htree hfind hlink (by decide) hcalls
    (List.pairwise_pair.2 fun s hs _ x t hfile => by
      have hdir := hdirs s hs
      rw [hfile] at hdir
      cases hdir)
    (List.replicate 30 [0, 1]).flatten (i := 1) rfl
  exact ⟨hfirst, hsecond, made, hmade, hreturned (by decide)⟩

/-- The first maker finds the old file; before it removes the file, the second one replaces it by a
directory and finds that directory. -/
def lateRemoval : List Nat := [0, 0, 0, 0, 0, 1, 1, 1, 1, 1, 1, 1, 1, 0, 1, 1, 1, 1]

/-- Of two calls that come by the same old file, the one that is late to remove it takes away the
directory that the other has made in its place, and so the other fails. -/
theorem late_removal_fails_another :
    (staleCache "p").IsTree ∧
      (staleCache "p").find (Cache.mk "cache").root = .ok (.at ["cache"] (.dir Disk.openMode)) ∧
      (∀ q t, (["cache"] : Place) <+: q → (staleCache "p").get? q ≠ some (.link t)) ∧
      (Cache.mk "cache").Admits "base" "p/a/x" ∧ (Cache.mk "cache").Admits "base" "p/b/y" ∧
      ∃ made, (((Cache.mk "cache").calling [("base", "p/a/x"), ("base", "p/b/y")]
          (staleCache "p")).turns "cache" lateRemoval).makers[1]? = some made ∧
        returned "cache/files/base/p/b/y" made =
          some (.error (.store (.noDirectory "cache/files/base/p/b"))) :=
  ⟨Disk.isTree_of_entries (by decide), by decide,
    fun q t _ => Disk.get?_ne_link_of_entries (by decide) q t,
    ⟨by decide, by decide, by decide⟩, ⟨by decide, by decide, by decide⟩,
    .failed (.store (.noDirectory "cache/files/base/p/b")), by decide +kernel, rfl⟩

end FileCourier.Cache
