import FileCourier.Proofs.Cache.Making
import FileCourier.Proofs.Disk.Site

/-!
# What the making of directories changes

`Built` is all that a maker can do on its way, however that ends: on each component it finds a
directory, makes one, perhaps after a file gave place to it, or gets stuck (`built_complete`). Below
a directory without links it only fills places on its way where no directory stands (`Built.site`).
Where there is no such directory yet, none comes to be that holds anything (`Built.unbuilt`).
-/

namespace FileCourier.Making

open Disk (Behind Fills Keeps Site Within maxLinks)
open FileCourier.Path (Proper Reads)

variable {root here path : Path} {m : Making} {d d' d₁ d₂ : Disk} {P : Place} {absolute : Bool}
  {names ns done comps rest : List Bytes} {c : Bytes} {n : Nat}

/-- The disk after a file at a path was removed, or the same disk. -/
def Cleared (path : Path) (d d' : Disk) : Prop :=
  d' = d ∨ d.isFile path = true ∧ d.remove path = .ok (some d')

/-- How a maker at `here` deals with the components before it, and how it ends. -/
inductive Built : Path → List Bytes → Disk → Making → Disk → Prop
  | done {here : Path} {d : Disk} : Built here [] d finished d
  | stuck {here : Path} {c : Bytes} {r : List Bytes} {d d₁ : Disk} {fault : Fault} :
      d.isDirectory (here / c) = false → Cleared (here / c) d d₁ →
      Built here (c :: r) d (failed fault) d₁
  | found {here : Path} {c : Bytes} {r : List Bytes} {d d₁ d' : Disk} {m : Making} :
      Cleared (here / c) d d₁ → d₁.isDirectory (here / c) = true →
      Built (here / c) r d₁ m d' → Built here (c :: r) d m d'
  | made {here : Path} {c : Bytes} {r : List Bytes} {d d₁ d₂ d' : Disk} {m : Making} :
      d.isDirectory (here / c) = false → Cleared (here / c) d d₁ →
      d₁.makeDirectory (here / c) = .ok d₂ →
      Built (here / c) r (d₂.setMode (here / c) Disk.ownerMode) m d' → Built here (c :: r) d m d'

/-! ## Runs -/

theorem run_failed (root : Path) (n : Nat) (fault : Fault) (d : Disk) :
    run root n (failed fault) d = (failed fault, d) := by
  induction n with
  | zero => rfl
  | succ n ih => exact ih

/-- What comes of a component that is to be made, whatever follows it. -/
theorem exists_run_from_make (root path : Path) (d : Disk) : ∃ k d', k ≤ 2 ∧
    ((∃ fault, (∀ rest, run root k (.at .make path rest) d = (failed fault, d')) ∧ d' = d) ∨
      (∀ rest, run root k (.at .make path rest) d = (next path rest, d')) ∧
        (d' = d ∧ d.isDirectory path = true ∨
          ∃ d₂, d.makeDirectory path = .ok d₂ ∧ d' = d₂.setMode path Disk.ownerMode)) := by
  cases hmake : d.makeDirectory path with
  | ok d₂ =>
    refine ⟨2, _, Nat.le_refl 2, .inr ⟨fun rest => ?_, .inr ⟨d₂, rfl, rfl⟩⟩⟩
    simp only [run, step, hmake]
  | error cause =>
    cases hunknowable : d.unknowable? path with
    | some cause =>
      refine ⟨2, _, Nat.le_refl 2, .inl ⟨.system ⟨"status", cause, [path]⟩, fun rest => ?_, rfl⟩⟩
      simp only [run, step, hmake, hunknowable]
    | none =>
      cases hdirectory : d.isDirectory path with
      | true =>
        refine ⟨2, _, Nat.le_refl 2, .inr ⟨fun rest => ?_, .inl ⟨rfl, rfl⟩⟩⟩
        simp only [run, step, hmake, hunknowable, hdirectory, if_true]
      | false =>
        refine ⟨2, _, Nat.le_refl 2, .inl ⟨.store (.noDirectory path), fun rest => ?_, rfl⟩⟩
        simp only [run, step, hmake, hunknowable, hdirectory, Bool.false_eq_true, if_false]

/-- A component that is no directory is removed if it is a file, or not, and then made. -/
theorem exists_run_cleared (root path : Path) (hdirectory : d.isDirectory path = false) :
    ∃ k d₁, k ≤ 3 ∧ (∀ rest, run root k (.at .look path rest) d = (.at .make path rest, d₁)) ∧
      Cleared path d d₁ := by
  cases hjudged : d.isFile path && path.isWithin root with
  | false =>
    refine ⟨2, d, by decide, fun rest => ?_, .inl rfl⟩
    simp only [run, step, hdirectory, hjudged, Bool.false_eq_true, if_false]
  | true =>
    obtain ⟨hfile, hwithin⟩ := Bool.and_eq_true_iff.1 hjudged
    refine ⟨3, (step root (.at .remove path []) d).2, Nat.le_refl 3, fun rest => ?_, ?_⟩
    · simp only [run, step, hdirectory, hfile, hwithin, Bool.and_self, Bool.false_eq_true, if_false,
        if_true]
    · rw [step]
      dsimp only
      split
      · rename_i d₁ hremove
        exact .inr ⟨hfile, hremove⟩
      · exact .inl rfl

/-- With steps enough for each component, a maker deals with all of them or gets stuck. -/
theorem built_run (root here : Path) (comps : List Bytes) (d : Disk)
    (hn : stepsEach * comps.length ≤ n) :
    Built here comps d (run root n (next here comps) d).1 (run root n (next here comps) d).2 := by
  induction comps generalizing here d n with
  | nil =>
    rw [next, run_finished]
    exact .done
  | cons c r ih =>
    have hlength : stepsEach * (c :: r).length = stepsEach * r.length + 5 := rfl
    cases hdirectory : d.isDirectory (here / c) with
    | true =>
      obtain ⟨k, rfl⟩ : ∃ k, n = 1 + k := ⟨n - 1, by omega⟩
      rw [next, run_trans (run_one_of_isDirectory root hdirectory r)]
      exact .found (.inl rfl) hdirectory (ih _ d (by omega))
    | false =>
      obtain ⟨k, d₁, hk, hcleared, hd₁⟩ := exists_run_cleared root (here / c) hdirectory
      obtain ⟨k', d', hk', hend⟩ := exists_run_from_make root (here / c) d₁
      obtain ⟨k'', rfl⟩ : ∃ k'', n = k + (k' + k'') := ⟨n - (k + k'), by omega⟩
      rw [next, run_trans (hcleared r)]
      rcases hend with ⟨fault, hrun, rfl⟩ | ⟨hrun, ⟨rfl, hfound⟩ | ⟨d₂, hmake, rfl⟩⟩
      · rw [run_trans (hrun r), run_failed]
        exact .stuck hdirectory hd₁
      · rw [run_trans (hrun r)]
        exact .found hd₁ hfound (ih _ d' (by omega))
      · rw [run_trans (hrun r)]
        exact .made hdirectory hd₁ hmake (ih _ _ (by omega))

theorem built_complete (root p : Path) (d : Disk) :
    Built ⟨[]⟩ p.components d (complete root p d).1 (complete root p d).2 :=
  built_run root ⟨[]⟩ p.components d (Nat.le_refl _)

/-- Where a maker starts, seen behind the slash of the root. -/
def origin (absolute : Bool) : Path := ⟨if absolute then [slash] else []⟩

theorem reads_origin (absolute : Bool) : Reads absolute [] (origin absolute) := by
  cases absolute
  · exact Path.reads_empty
  · exact Path.reads_slash

/-- The root is a directory. -/
theorem Built.of_slash (h : Built ⟨[]⟩ ((if absolute then [[slash]] else []) ++ comps) d m d') :
    Built (origin absolute) comps d m d' := by
  have hslash (d : Disk) : d.isDirectory (⟨[]⟩ / [slash] : Path) = true := rfl
  have hnoFile : d.isFile (⟨[]⟩ / [slash] : Path) = false := rfl
  cases absolute with
  | false => exact h
  | true =>
    rw [if_pos rfl, List.singleton_append] at h
    cases h with
    | stuck hno | made hno =>
      rw [hslash] at hno
      cases hno
    | found hcleared _ hrest =>
      rcases hcleared with rfl | ⟨hfile, -⟩
      · exact hrest
      · rw [hnoFile] at hfile
        cases hfile

/-- The components are dealt with one after the other. -/
theorem Built.of_append (h : Built here (comps ++ rest) d m d') :
    (∃ fault, m = failed fault) ∨ ∃ d₁, Built here comps d finished d₁ ∧
      Built (Path.along here comps) rest d₁ m d' := by
  induction comps generalizing here d with
  | nil => exact .inr ⟨d, .done, h⟩
  | cons c comps ih =>
    rw [List.cons_append] at h
    cases h with
    | stuck => exact .inl ⟨_, rfl⟩
    | found hcleared hfound hrest =>
      rcases ih hrest with hfailed | ⟨d₁, hbuilt, hrest⟩
      · exact .inl hfailed
      · exact .inr ⟨d₁, .found hcleared hfound hbuilt, hrest⟩
    | made hno hcleared hmake hrest =>
      rcases ih hrest with hfailed | ⟨d₁, hbuilt, hrest⟩
      · exact .inl hfailed
      · exact .inr ⟨d₁, .made hno hcleared hmake hbuilt, hrest⟩

/-! ## Below a directory without links -/

theorem Cleared.site (h : Cleared path d d₁) (hsite : Site absolute names P d)
    (hp : Behind absolute names ns path) :
    Site absolute names P d₁ ∧ Fills (· = P ++ ns) d d₁ := by
  rcases h with rfl | ⟨hfile, hremove⟩
  · exact ⟨hsite, .refl _ d₁⟩
  · obtain ⟨⟨x, t, hstands⟩, rfl, hsite₁⟩ := hsite.remove_file hp hfile hremove
    exact ⟨hsite₁, Disk.within_drop ⟨rfl, fun m => by simp [hstands]⟩ d⟩

theorem Cleared.site_of_made (h : Cleared path d d₁) (hsite : Site absolute names P d)
    (hp : Behind absolute names ns path) (hmake : d₁.makeDirectory path = .ok d₂) (mode : Nat) :
    Site absolute names P (d₂.setMode path mode) ∧
      Fills (· = P ++ ns) d (d₂.setMode path mode) := by
  obtain ⟨hsite₁, hfills₁⟩ := h.site hsite hp
  obtain ⟨hfree, rfl, hsite₂⟩ := hsite₁.makeDirectory hp hmake
  obtain ⟨hsite₃, hwithin⟩ := hsite₂.setMode hp mode
  have hput := (Disk.within_put (· = P ++ ns) rfl d₁ (.dir Disk.openMode)).trans hwithin
  refine ⟨hsite₃, hfills₁.trans (hput.mono ?_)⟩
  rintro q rfl
  exact ⟨rfl, fun m => by simp [hfree]⟩

/-- On the way to a directory there is nothing to clear. -/
theorem Cleared.eq_of_way (h : Cleared path d d₁) (hway : d.Way absolute names P)
    (hp : Reads absolute done path) (hdone : done <+: names) : d₁ = d := by
  rcases h with rfl | ⟨hfile, -⟩
  · rfl
  obtain ⟨rest, hrest⟩ := hdone
  obtain ⟨q, m, hfollow, -⟩ := hway done rest hrest.symm
  obtain ⟨p, x, t, hfind⟩ := Disk.find_of_isFile hfile
  cases hfollow.symm.trans (Disk.follow_of_find hp hfind)

/-- On the way to a directory there is nothing to make. -/
theorem makeDirectory_ne_of_way (hway : d.Way absolute names P) (hp : Reads absolute done path)
    (hdone : done <+: names) : d.makeDirectory path ≠ .ok d₂ := by
  intro hmake
  obtain ⟨rest, hrest⟩ := hdone
  obtain ⟨q, m, hfollow, -⟩ := hway done rest hrest.symm
  obtain ⟨parent, c, hfree, -⟩ := Disk.exists_of_makeDirectory hp hmake
  cases hfollow.symm.trans (Disk.follow_true_of_false hfree rfl)

/-- The places below `P` on the way along the names `ns`. -/
def OnWay (P : Place) (ns : List Bytes) (q : Place) : Prop := ∃ x, x ≠ [] ∧ x <+: ns ∧ q = P ++ x

/-- What is read along names on the way to the root or behind it leads to it, or behind it. -/
theorem way_or_behind (hp : Reads absolute done path) (hdone : done <+: names ++ ns)
    (hproper : ∀ c ∈ names ++ ns, Proper c) :
    done <+: names ∨ ∃ x, Behind absolute names x path ∧ ∀ P : Place, OnWay P ns (P ++ x) := by
  rcases Disk.prefix_append_cases hdone with hway | ⟨x, hx, hxns, rfl⟩
  · exact .inl hway
  · refine .inr ⟨x, ⟨hp, hx, fun c hc => hproper c ?_⟩, fun P => ⟨x, hx, hxns, rfl⟩⟩
    exact List.mem_append_right _ (hxns.subset hc)

theorem Cleared.onWay (h : Cleared path d d₁) (hsite : Site absolute names P d)
    (hp : Reads absolute done path) (hdone : done <+: names ++ ns)
    (hproper : ∀ c ∈ names ++ ns, Proper c) :
    Site absolute names P d₁ ∧ Fills (OnWay P ns) d d₁ := by
  rcases way_or_behind hp hdone hproper with hway | ⟨x, hbehind, honWay⟩
  · obtain rfl := h.eq_of_way hsite.way hp hway
    exact ⟨hsite, .refl _ _⟩
  · obtain ⟨hsite₁, hfills⟩ := h.site hsite hbehind
    exact ⟨hsite₁, hfills.mono fun q hq => hq ▸ honWay P⟩

theorem Cleared.onWay_of_made (h : Cleared path d d₁) (hsite : Site absolute names P d)
    (hp : Reads absolute done path) (hdone : done <+: names ++ ns)
    (hproper : ∀ c ∈ names ++ ns, Proper c) (hmake : d₁.makeDirectory path = .ok d₂) (mode : Nat) :
    Site absolute names P (d₂.setMode path mode) ∧
      Fills (OnWay P ns) d (d₂.setMode path mode) := by
  rcases way_or_behind hp hdone hproper with hway | ⟨x, hbehind, honWay⟩
  · obtain rfl := h.eq_of_way hsite.way hp hway
    exact absurd hmake (makeDirectory_ne_of_way hsite.way hp hway)
  · obtain ⟨hsite₁, hfills⟩ := h.site_of_made hsite hbehind hmake mode
    exact ⟨hsite₁, hfills.mono fun q hq => hq ▸ honWay P⟩

/-- A maker on its way below a directory without links fills places on its way. -/
theorem Built.site (h : Built here comps d m d') (hsite : Site absolute names P d)
    (hhere : Reads absolute done here) (hcomps : done ++ comps <+: names ++ ns)
    (hproper : ∀ c ∈ names ++ ns, Proper c) :
    Site absolute names P d' ∧ Fills (OnWay P ns) d d' := by
  have next {done r : List Bytes} {c : Bytes} {here : Path} (hhere : Reads absolute done here)
      (hcomps : done ++ c :: r <+: names ++ ns) : Reads absolute (done ++ [c]) (here / c) ∧
        done ++ [c] <+: names ++ ns ∧ done ++ [c] ++ r <+: names ++ ns := by
    have hpath := hhere.join (hproper c (hcomps.subset (by simp)))
    rw [List.append_cons] at hcomps
    exact ⟨hpath, (List.prefix_append _ r).trans hcomps, hcomps⟩
  -- `Site` is what each component keeps, and what it changes is on the way.
  induction h generalizing done with
  | done => exact ⟨hsite, .refl _ _⟩
  | stuck _ hcleared =>
    obtain ⟨hpath, hdone, -⟩ := next hhere hcomps
    exact hcleared.onWay hsite hpath hdone hproper
  | found hcleared _ _ ih =>
    obtain ⟨hpath, hdone, hrest⟩ := next hhere hcomps
    obtain ⟨hsite₁, hfills₁⟩ := hcleared.onWay hsite hpath hdone hproper
    obtain ⟨hsite₂, hfills₂⟩ := ih hsite₁ hpath hrest
    exact ⟨hsite₂, hfills₁.trans hfills₂⟩
  | made _ hcleared hmake _ ih =>
    obtain ⟨hpath, hdone, hrest⟩ := next hhere hcomps
    obtain ⟨hsite₁, hfills₁⟩ := hcleared.onWay_of_made hsite hpath hdone hproper hmake Disk.ownerMode
    obtain ⟨hsite₂, hfills₂⟩ := ih hsite₁ hpath hrest
    exact ⟨hsite₂, hfills₁.trans hfills₂⟩

/-! ## Where there is no directory yet -/

/-- Names that start from a directory and lead to none that holds anything. -/
structure Unbuilt (absolute : Bool) (names : List Bytes) (d : Disk) : Prop where
  tree : d.IsTree
  base : ∃ m, d.get? (d.base absolute) = some (.dir m)
  nothing : ∀ {P q m}, d.follow true maxLinks (d.base absolute) names = .ok (.at P (.dir m)) →
    P <+: q → q ≠ P → d.get? q = none

/-- What leads to a directory that holds nothing is a site. -/
theorem Unbuilt.site {k : Nat} (h : Unbuilt absolute names d)
    (hfollow : d.follow true maxLinks (d.base absolute) names = .ok (.at P (.dir k))) :
    Site absolute names P d where
  tree := h.tree
  noLink {q t} hq hlink := by
    by_cases hqP : q = P
    · subst hqP
      cases hlink.symm.trans (Disk.spot_of_follow hfollow)
    · rw [h.nothing hfollow hq hqP] at hlink
      cases hlink
  way := Disk.way_of_follow h.tree h.base hfollow

/-- Less on the disk leads to no other directories. -/
theorem Unbuilt.of_keeps (h : Unbuilt absolute names d) (htree : d'.IsTree) (hk : Keeps d' d)
    (hbase : ∃ m, d'.get? (d.base absolute) = some (.dir m))
    (hnone : ∀ q, d.get? q = none → d'.get? q = none) : Unbuilt absolute names d' := by
  have heq : d'.base absolute = d.base absolute := by rw [Disk.base, Disk.base, hk.cwd]
  refine ⟨htree, heq ▸ hbase, fun {P q m} hfollow hq hqP => hnone q ?_⟩
  obtain ⟨m', hdir⟩ := hk.dir (Disk.spot_of_follow hfollow)
  have hfollow' := Disk.follow_of_keeps hk hfollow rfl hdir rfl
  rw [heq] at hfollow'
  exact h.nothing hfollow' hq hqP

/-- A path that leads to a file is not a directory itself. -/
theorem not_dir_of_isFile (hp : Reads absolute ns path) (hfile : d.isFile path = true) {q : Place}
    {k : Nat} : d.follow false maxLinks (d.base absolute) ns ≠ .ok (.at q (.dir k)) := by
  intro hfollow
  obtain ⟨p, x, t, hfind⟩ := Disk.find_of_isFile hfile
  cases (Disk.follow_true_of_false hfollow rfl).symm.trans (Disk.follow_of_find hp hfind)

theorem Cleared.unbuilt (h : Cleared path d d₁) (hu : Unbuilt absolute names d)
    (hp : Reads absolute ns path) : Unbuilt absolute names d₁ := by
  rcases h with rfl | ⟨hfile, hremove⟩
  · exact hu
  obtain ⟨q, e, hfollow, rfl, -, hchildren⟩ := Disk.exists_of_remove hp hremove
  have hstands : d.get? q = some e := Disk.spot_of_follow hfollow
  have hdir : ∀ k, d.get? q ≠ some (.dir k) := fun k hk => by
    obtain rfl : e = .dir k := Option.some.inj (hstands.symm.trans hk)
    exact not_dir_of_isFile hp hfile hfollow
  have hq : q ≠ [] := fun hnil => hdir Disk.openMode (hnil ▸ rfl)
  refine hu.of_keeps (hu.tree.drop hq fun p => hu.tree.below_of_children hstands hchildren)
    ⟨rfl, fun hp => ⟨_, Disk.get?_of_get?_drop hp hq⟩, fun hp => Disk.get?_of_get?_drop hp hq⟩ ?_
    fun p hp => ?_
  · obtain ⟨k, hbase⟩ := hu.base
    have hne : d.base absolute ≠ q := fun heq => hdir k (by rwa [← heq])
    exact ⟨k, by rwa [Disk.get?_drop_of_ne hne]⟩
  · by_cases hpq : p = q
    · rw [hpq, Disk.get?_drop_self hq]
    · rwa [Disk.get?_drop_of_ne hpq]

/-- A directory that comes to be on the way holds nothing, so no names behind it lead anywhere. -/
theorem Unbuilt.fresh {parent : Place} {k : Nat} (h : Unbuilt absolute names d)
    (hproper : ∀ c ∈ names, Proper c) (hdone : done <+: names)
    (hfollow : d.follow false maxLinks (d.base absolute) done = .ok (.free parent c))
    (hwithin : Within (· = parent ++ [c]) d d')
    (hdir : d'.get? (parent ++ [c]) = some (.dir k)) : Unbuilt absolute names d' ∧
      d'.follow true maxLinks (d'.base absolute) done = .ok (.at (parent ++ [c]) (.dir k)) := by
  obtain ⟨hfree, -⟩ := Disk.spot_of_follow hfollow
  have hparent := Disk.dir_of_follow_free h.tree h.base hfollow
  have hsame {q : Place} (hq : d.get? q ≠ none) : d'.get? q = d.get? q :=
    hwithin.get? fun heq => hq (heq ▸ hfree)
  have hk : Keeps d d' := by
    refine ⟨hwithin.cwd, fun {q m} hq => ⟨m, ?_⟩, fun hq => ?_⟩
    · exact (hsame (Disk.ne_none_of_get? hq)).trans hq
    · exact (hsame (Disk.ne_none_of_get? hq)).trans hq
  have hbelow {q : Place} (hq : parent ++ [c] <+: q) (hne : q ≠ parent ++ [c]) :
      d'.get? q = none := by
    rw [hwithin.get? hne]
    exact h.tree.get?_below (fun m => by simp [hfree]) hq hne
  have heq : d'.base absolute = d.base absolute := by rw [Disk.base, Disk.base, hk.cwd]
  have hnew : d'.follow true maxLinks (d'.base absolute) done = .ok (.at (parent ++ [c]) (.dir k)) :=
    heq ▸ Disk.follow_of_keeps hk (Disk.follow_true_of_false hfollow rfl) rfl hdir rfl
  refine ⟨⟨?_, ?_, ?_⟩, hnew⟩
  · intro p c' hsome
    by_cases hp : p = parent ++ [c]
    · exact ⟨k, hp ▸ hdir⟩
    · rw [hwithin.get? hp]
      by_cases hpc : p ++ [c'] = parent ++ [c]
      · obtain ⟨rfl, -⟩ := List.append_inj' hpc rfl
        exact hparent
      · rw [hwithin.get? hpc] at hsome
        exact h.tree p c' hsome
  · obtain ⟨m, hbase⟩ := h.base
    exact ⟨m, by rw [heq, hsame (Disk.ne_none_of_get? hbase), hbase]⟩
  · intro P q m hP hq hqP
    obtain ⟨rest, rfl⟩ := hdone
    cases rest with
    | nil =>
      rw [List.append_nil, hnew] at hP
      cases hP
      exact hbelow hq hqP
    | cons c' rest =>
      have hc' := hproper c' (by simp)
      obtain ⟨j, hj⟩ := Disk.follow_append hnew (List.cons_ne_nil c' rest) true
      rw [hj] at hP
      exact absurd (hbelow (List.prefix_append _ [c']) (by simp))
        (Disk.get?_of_follow_cons hc'.ne_dot hc'.ne_dotDot hP)

theorem Cleared.unbuilt_of_made (h : Cleared path d d₁) (hu : Unbuilt absolute names d)
    (hproper : ∀ c ∈ names, Proper c) (hp : Reads absolute done path) (hdone : done <+: names)
    (hmake : d₁.makeDirectory path = .ok d₂) (mode : Nat) :
    Unbuilt absolute names (d₂.setMode path mode) ∧ ∃ P k,
      (d₂.setMode path mode).follow true maxLinks ((d₂.setMode path mode).base absolute) done =
        .ok (.at P (.dir k)) := by
  have hu₁ := h.unbuilt hu hp
  obtain ⟨parent, c, hfollow, rfl⟩ := Disk.exists_of_makeDirectory hp hmake
  have hput := Disk.within_put (· = parent ++ [c]) rfl d₁ (.dir Disk.openMode)
  have hdir {d : Disk} {k : Nat} : (d.put (parent ++ [c]) (.dir k)).get? (parent ++ [c]) =
      some (.dir k) := Disk.get?_put_self (by simp)
  obtain ⟨hu₂, hnew⟩ := hu₁.fresh hproper hdone hfollow hput hdir
  rcases Disk.setMode_cases (d₁.put (parent ++ [c]) (.dir Disk.openMode)) path mode with
    heq | ⟨q, m, hfind, heq⟩
  · rw [heq]
    exact ⟨hu₂, _, _, hnew⟩
  · cases hnew.symm.trans (Disk.follow_of_find hp hfind)
    rw [heq]
    obtain ⟨hu₃, hnew₃⟩ := hu₁.fresh hproper hdone hfollow
      (hput.trans (Disk.within_put (· = parent ++ [c]) rfl _ _)) hdir
    exact ⟨hu₃, _, _, hnew₃⟩

/-- A maker on its way to a directory that is not there yet leads to none that holds anything; and
when it gets to the end of the names, the directory is there. -/
theorem Built.unbuilt (h : Built here comps d m d') (hu : Unbuilt absolute names d)
    (hproper : ∀ c ∈ names, Proper c) (hhere : Reads absolute done here)
    (hcomps : done ++ comps <+: names) : Unbuilt absolute names d' ∧
      (m = finished → comps ≠ [] → ∃ P k,
        d'.follow true maxLinks (d'.base absolute) (done ++ comps) = .ok (.at P (.dir k))) := by
  induction h generalizing done with
  | done => exact ⟨hu, fun _ hne => absurd rfl hne⟩
  | @stuck _ c _ _ _ _ _ hcleared =>
    have hpath := hhere.join (hproper c (hcomps.subset (by simp)))
    exact ⟨hcleared.unbuilt hu hpath, nofun⟩
  | @found _ c r _ _ _ _ hcleared hfound hrest ih =>
    have hpath := hhere.join (hproper c (hcomps.subset (by simp)))
    rw [List.append_cons] at hcomps
    obtain ⟨hu', hend⟩ := ih (hcleared.unbuilt hu hpath) hpath hcomps
    refine ⟨hu', fun hfinished _ => ?_⟩
    rw [List.append_cons]
    by_cases hr : r = []
    · subst hr
      cases hrest
      rw [List.append_nil]
      obtain ⟨q, k, hfind⟩ := Disk.find_of_isDirectory hfound
      exact ⟨q, k, Disk.follow_of_find hpath hfind⟩
    · exact hend hfinished hr
  | @made _ c r _ _ _ _ _ _ hcleared hmake hrest ih =>
    have hpath := hhere.join (hproper c (hcomps.subset (by simp)))
    rw [List.append_cons] at hcomps
    obtain ⟨hu₁, hnew⟩ := hcleared.unbuilt_of_made hu hproper hpath
      ((List.prefix_append _ r).trans hcomps) hmake Disk.ownerMode
    obtain ⟨hu', hend⟩ := ih hu₁ hpath hcomps
    refine ⟨hu', fun hfinished _ => ?_⟩
    rw [List.append_cons]
    by_cases hr : r = []
    · subst hr
      cases hrest
      rwa [List.append_nil]
    · exact hend hfinished hr

end FileCourier.Making
