import FileCourier.Proofs.Cache.Kept
import FileCourier.Proofs.Cache.Putting

/-!
# Caches that are made with their first file

A cache whose directory is missing is made when its first file comes. What comes of that is the same as
if the directory had stood before (`Opens.ensureDirectory_eq`), because a maker goes on behind a
directory as it would from there (`ensureDirectory_again`). From then on the cache is settled at a
place, and stays there while nothing changes but in it (`Settled.of_within`).
-/

namespace FileCourier

open Disk (Within maxPath)
open FileCourier.Path (Ordinary Reads weight)

/-! ## Makers that go on -/

namespace Making

variable {root here : Path} {comps rest : List Bytes} {d d₁ : Disk} {n : Nat}

/-- A component is passed or stops the maker, whatever follows it. -/
theorem exists_run_look (root path : Path) (d : Disk) : ∃ k d', k ≤ stepsEach ∧
    ((∃ fault, ∀ rest, run root k (.at .look path rest) d = (failed fault, d')) ∨
      ∀ rest, run root k (.at .look path rest) d = (next path rest, d')) := by
  cases hdirectory : d.isDirectory path with
  | true => exact ⟨1, d, by decide, .inr (run_one_of_isDirectory root hdirectory)⟩
  | false =>
    obtain ⟨k, d₁, hk, hcleared, -⟩ := exists_run_cleared root path hdirectory
    obtain ⟨k', d', hk', hend⟩ := exists_run_from_make root path d₁
    refine ⟨k + k', d', Nat.add_le_add hk hk', ?_⟩
    rcases hend with ⟨fault, hrun, -⟩ | ⟨hrun, -⟩
    · exact .inl ⟨fault, fun rest => (run_trans (hcleared rest) k').trans (hrun rest)⟩
    · exact .inr fun rest => (run_trans (hcleared rest) k').trans (hrun rest)

/-- So are components one after the other. -/
theorem exists_run_along (root here : Path) (comps : List Bytes) (d : Disk) :
    ∃ k d', k ≤ stepsEach * comps.length ∧
      ((∃ fault, ∀ rest, run root k (next here (comps ++ rest)) d = (failed fault, d')) ∨
        ∀ rest, run root k (next here (comps ++ rest)) d = (next (here.along comps) rest, d')) := by
  induction comps generalizing here d with
  | nil => exact ⟨0, d, Nat.zero_le _, .inr fun _ => rfl⟩
  | cons c comps ih =>
    obtain ⟨k, d₁, hk, hfirst⟩ := exists_run_look root (here / c) d
    rcases hfirst with ⟨fault, hfirst⟩ | hfirst
    · refine ⟨k, d₁, Nat.le_trans hk (Nat.le_mul_of_pos_right _ (Nat.succ_pos _)), .inl ⟨fault, ?_⟩⟩
      exact fun rest => hfirst (comps ++ rest)
    · obtain ⟨k', d', hk', hlater⟩ := ih (here / c) d₁
      have htrans (rest : List Bytes) : run root (k + k') (next here (c :: comps ++ rest)) d =
          run root k' (next (here / c) (comps ++ rest)) d₁ := run_trans (hfirst (comps ++ rest)) k'
      refine ⟨k + k', d', ?_, ?_⟩
      · rw [List.length_cons, Nat.mul_succ, Nat.add_comm]
        exact Nat.add_le_add hk' hk
      · rcases hlater with ⟨fault, hlater⟩ | hlater
        · exact .inl ⟨fault, fun rest => (htrans rest).trans (hlater rest)⟩
        · exact .inr fun rest => (htrans rest).trans (hlater rest)

/-- Steps beyond those that the components may need make no difference. -/
theorem run_enough (hn : stepsEach * comps.length ≤ n) :
    run root n (next here comps) d = run root (stepsEach * comps.length) (next here comps) d := by
  obtain ⟨k, d', hk, hend⟩ := exists_run_along root here comps d
  have hstays : ∃ m, run root k (next here comps) d = (m, d') ∧ ∀ j, run root j m d' = (m, d') := by
    rcases hend with ⟨fault, hrun⟩ | hrun
    · have hfailed := hrun []
      rw [List.append_nil] at hfailed
      exact ⟨_, hfailed, fun j => run_failed root j fault d'⟩
    · have hfinished := hrun []
      rw [List.append_nil] at hfinished
      exact ⟨_, hfinished, fun j => run_finished root j d'⟩
  obtain ⟨m, hrun, hstays⟩ := hstays
  obtain ⟨i, rfl⟩ := Nat.exists_eq_add_of_le (Nat.le_trans hk hn)
  obtain ⟨j, hj⟩ := Nat.exists_eq_add_of_le hk
  rw [hj, run_trans hrun, run_trans hrun, hstays, hstays]

/-- Behind components that it passes, a maker goes on as it would from there. -/
theorem run_append (h : run root (stepsEach * comps.length) (next here comps) d = (finished, d₁)) :
    run root (stepsEach * (comps ++ rest).length) (next here (comps ++ rest)) d =
      run root (stepsEach * rest.length) (next (here.along comps) rest) d₁ := by
  obtain ⟨k, d', hk, hend⟩ := exists_run_along root here comps d
  obtain ⟨j, hj⟩ := Nat.exists_eq_add_of_le hk
  rcases hend with ⟨fault, hrun⟩ | hrun
  · have hfailed := hrun []
    rw [List.append_nil] at hfailed
    rw [hj, run_trans hfailed, run_failed] at h
    cases h
  · have hpassed := hrun []
    rw [List.append_nil] at hpassed
    rw [hj, run_trans hpassed, next, run_finished] at h
    cases h
    have hsteps : stepsEach * (comps ++ rest).length = k + (j + stepsEach * rest.length) := by
      rw [List.length_append, Nat.mul_add, hj, Nat.add_assoc]
    rw [hsteps, run_trans (hrun rest), run_enough (Nat.le_add_left _ j)]

end Making

namespace Cache

variable {c : Cache} {p q : Path} {d d' d₁ : Disk} {P : Place} {rest ns : List Bytes}

/-- What is made behind a directory does not depend on whether the directory was made before. -/
theorem ensureDirectory_again (hq : q.components = p.components ++ rest)
    (h : c.ensureDirectory p d = (.ok (), d₁)) (hagain : c.ensureDirectory p d₁ = (.ok (), d₁)) :
    c.ensureDirectory q d = c.ensureDirectory q d₁ := by
  have hcomplete : Making.complete c.root q d = Making.complete c.root q d₁ := by
    have hfirst := finished_of_ensureDirectory h
    have hsecond := finished_of_ensureDirectory hagain
    rw [Making.complete, Making.start] at hfirst hsecond ⊢
    rw [Making.complete, Making.start, hq, Making.run_append hfirst, Making.run_append hsecond]
  rw [ensureDirectory, ensureDirectory, hcomplete]

/-! ## Caches that stay where they are -/

/-- The cache is ready, and its directory is at a place. -/
structure Settled (c : Cache) (P : Place) (d : Disk) : Prop where
  tree : d.IsTree
  find : ∃ k, (d.clear P).find c.root = .ok (.at P (.dir k))
  noLink : ∀ q t, P <+: q → d.get? q ≠ some (.link t)
  ordinary : ∀ n ∈ c.root.names, Ordinary n

theorem Ready.exists_settled (h : c.Ready d) : ∃ P, c.Settled P d := by
  obtain ⟨P, k, hfind, hlink⟩ := h.root
  exact ⟨P, h.tree, ⟨k, hfind⟩, hlink, h.ordinary⟩

namespace Settled

variable (h : c.Settled P d)
include h

theorem ready : c.Ready d := by
  obtain ⟨k, hfind⟩ := h.find
  exact ⟨h.tree, ⟨P, k, hfind, h.noLink⟩, h.ordinary⟩

theorem way : (d.clear P).Way c.root.isAbsolute c.root.names P := by
  obtain ⟨k, hfind⟩ := h.find
  exact Disk.way_of_find (h.tree.clear P) h.ordinary hfind

theorem site : c.At P d :=
  ⟨h.tree, h.noLink _ _, h.way.of_keeps (Disk.region_clear h.tree h.noLink).keeps⟩

theorem text_ne_nil : c.root.text ≠ [] := by
  obtain ⟨k, hfind⟩ := h.find
  exact Disk.text_ne_nil_of_find (Path.no_nul_of_names h.ordinary) hfind

/-- The cache stays settled while nothing changes but in it, and no link comes to be there. -/
theorem of_within (hsite : c.At P d') (hwithin : Within (P <+: ·) d d') : c.Settled P d' := by
  obtain ⟨k, hfind⟩ := h.find
  obtain ⟨k', hdir⟩ := hsite.dir
  have hcleared : (d'.clear P).get? P = some (.dir k') := by
    rwa [Disk.get?_clear_of_not_below fun hbelow => hbelow.2 rfl]
  have hkeeps := hwithin.keeps_clear ⟨k', hdir⟩ fun t ht => by
    cases ht.symm.trans (Disk.get?_of_find hfind)
  exact ⟨hsite.tree, ⟨k', Disk.find_of_keeps hkeeps hfind rfl hcleared rfl⟩,
    fun _ _ => hsite.noLink, h.ordinary⟩

end Settled

/-! ## Caches that are made -/

/-- Nothing is left to be made on the way to a cache that is ready. -/
theorem Ready.ensureDirectory_root (h : c.Ready d) (hp : Reads c.root.isAbsolute c.root.names p)
    (hshort : weight c.root.names + (if c.root.isAbsolute then 1 else 0) ≤ maxPath) :
    c.ensureDirectory p d = (.ok (), d) := by
  obtain ⟨P, hsettled⟩ := h.exists_settled
  have hcomponents : p.components =
      (if c.root.isAbsolute then [[slash]] else []) ++ (c.root.names ++ []) := by
    rw [List.append_nil, hp.components]
  obtain ⟨n, -, hcomplete⟩ := Making.exists_complete_eq
    (Disk.region_clear hsettled.tree hsettled.noLink).keeps hsettled.way hcomponents h.ordinary hshort
  rw [Making.next, Making.run_finished] at hcomplete
  rw [ensureDirectory, hcomplete]

/-- The directory of the cache is there or can be made, which leaves a disk on which the cache is
ready. -/
structure Opens (c : Cache) (d d₁ : Disk) : Prop where
  made : c.prepare (c.root / "files") d = (.ok (c.root / "files"), d₁)
  ready : c.Ready d₁

namespace Opens

variable (h : c.Opens d d₁)
include h

/-- What is made in a cache does not depend on whether its directory was made before. -/
theorem ensureDirectory_eq
    (hq : q.components = (if c.root.isAbsolute then [[slash]] else []) ++ (c.root.names ++ ns))
    (hshort : weight c.root.names + (if c.root.isAbsolute then 1 else 0) ≤ maxPath) :
    c.ensureDirectory q d = c.ensureDirectory q d₁ := by
  have hreads : Reads c.root.isAbsolute (c.root.names ++ [Bytes.ofString "files"])
      (c.root / "files") :=
    Path.reads_join (Path.no_nul_of_names h.ready.ordinary) ordinary_files.proper.plain
  have hmade := h.made
  rw [prepare_apply] at hmade
  cases hempty : (c.root / "files" : Path).parent.isEmpty with
  | true =>
    rw [hempty, if_pos rfl] at hmade
    cases hmade
    rfl
  | false =>
    have hparent := hreads.parent hempty
    rw [hempty, if_neg Bool.false_ne_true] at hmade
    have hrest : q.components = (c.root / "files" : Path).parent.components ++ ns := by
      rw [hq, hparent.components, List.append_assoc]
    have hagain := h.ready.ensureDirectory_root hparent hshort
    split at hmade
    · rename_i hensured
      cases hmade
      exact ensureDirectory_again hrest hensured hagain
    · cases hmade

end Opens

/-- A cache that is ready is there. -/
theorem Ready.opens (h : c.Ready d)
    (hshort : weight c.root.names + (if c.root.isAbsolute then 1 else 0) ≤ maxPath) : c.Opens d d := by
  have hreads : Reads c.root.isAbsolute (c.root.names ++ [Bytes.ofString "files"])
      (c.root / "files") :=
    Path.reads_join (Path.no_nul_of_names h.ordinary) ordinary_files.proper.plain
  refine ⟨?_, h⟩
  rw [prepare_apply]
  cases hempty : (c.root / "files" : Path).parent.isEmpty with
  | true => rfl
  | false =>
    rw [if_neg Bool.false_ne_true, h.ensureDirectory_root (hreads.parent hempty) hshort]

end Cache

end FileCourier
