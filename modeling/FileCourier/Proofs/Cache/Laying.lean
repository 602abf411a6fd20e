import FileCourier.Proofs.Cache.Settling
import FileCourier.Proofs.Disk.Linkless

/-!
# What the making of directories changes where there are no links

On a disk without links a maker passes directories and lays a new one where nothing stands or a file
in the cache gives place to it, until it is stuck (`Laid`). So nothing else changes, however it ends
(`Laid.paves`), and a maker that got to its end finds nothing left to do (`run_of_trodden`).
-/

namespace FileCourier

open Disk (Fits Keeps Linkless maxPath)
open FileCourier.Path (combine)

namespace Making

variable {root here path : Path} {comps pre : List Bytes} {c : Bytes} {m : Making} {d d' d₁ : Disk}
  {q : Place} {n k : Nat} {fault : Fault}

/-- At the end of a path a directory can be laid: where nothing stands, or where a file stands and
the path is in the cache. -/
structure Yields (root path : Path) (q : Place) (d : Disk) : Prop where
  fits : d.Fits path q
  gives : d.get? q = none ∨ (∃ x s, d.get? q = some (.file x s)) ∧ path.isWithin root = true

/-- How a maker deals with the components before it on a disk without links, and how it ends. -/
inductive Laid (root : Path) : Path → List Bytes → Disk → Making → Disk → Prop
  | done {here : Path} {d : Disk} : Laid root here [] d finished d
  | stuck {here : Path} {c : Bytes} {r : List Bytes} {d : Disk} {fault : Fault} :
      Laid root here (c :: r) d (failed fault) d
  | passed {here : Path} {c : Bytes} {r : List Bytes} {d d' : Disk} {m : Making} :
      d.isDirectory (here / c) = true → Laid root (here / c) r d m d' →
      Laid root here (c :: r) d m d'
  | filled {here : Path} {c : Bytes} {r : List Bytes} {q : Place} {d d' : Disk} {m : Making} :
      Yields root (here / c) q d →
      Laid root (here / c) r (d.put q (.dir Disk.ownerMode)) m d' → Laid root here (c :: r) d m d'

/-! ## Runs -/

/-- What was made where a directory fits is found there and restricted to its owner. -/
theorem setMode_of_fits (h : d.Fits path q) : (d.put q (.dir Disk.openMode)).setMode path
    Disk.ownerMode = d.put q (.dir Disk.ownerMode) := by
  rw [Disk.setMode, h.find]
  exact Disk.put_put d q _ _

/-- A component is passed, or a directory is laid, or the maker is stuck. -/
theorem exists_run_laid (root path : Path) (hd : d.Linkless) : ∃ k, k ≤ stepsEach ∧
    ((∃ fault, ∀ rest, run root k (.at .look path rest) d = (failed fault, d)) ∨
      (d.isDirectory path = true ∧
        ∀ rest, run root k (.at .look path rest) d = (next path rest, d)) ∨
      ∃ q, Yields root path q d ∧ ∀ rest, run root k (.at .look path rest) d =
        (next path rest, d.put q (.dir Disk.ownerMode))) := by
  cases hdirectory : d.isDirectory path with
  | true => exact ⟨1, by decide, .inr (.inl ⟨rfl, run_one_of_isDirectory root hdirectory⟩)⟩
  | false =>
    cases hjudged : d.isFile path && path.isWithin root with
    | true =>
      obtain ⟨hfile, hwithin⟩ := Bool.and_eq_true_iff.1 hjudged
      -- A file in the cache is removed, and a directory made and restricted, in five steps.
      obtain ⟨q, hstands, hfits, hremove, hmake⟩ := hd.fits_of_isFile hfile
      refine ⟨5, by decide, .inr (.inr ⟨q, ⟨hfits, .inr ⟨hstands, hwithin⟩⟩, fun rest => ?_⟩)⟩
      simp only [run, step, hdirectory, hjudged, hremove, hmake, setMode_of_fits hfits,
        Bool.false_eq_true, if_false, if_true]
    | false =>
      have hjudge (rest : List Bytes) : run root 2 (.at .look path rest) d = (.at .make path rest, d) := by
        simp only [run, step, hdirectory, hjudged, Bool.false_eq_true, if_false]
      obtain ⟨k, d', hk, hend⟩ := exists_run_from_make root path d
      refine ⟨2 + k, Nat.le_trans (Nat.add_le_add_left hk 2) (by decide), ?_⟩
      rcases hend with ⟨fault, hrun, rfl⟩ | ⟨hrun, ⟨rfl, hfound⟩ | ⟨d₂, hmake, rfl⟩⟩
      · exact .inl ⟨fault, fun rest => (run_trans (hjudge rest) k).trans (hrun rest)⟩
      · rw [hdirectory] at hfound
        cases hfound
      · obtain ⟨q, hfree, hfits, rfl⟩ := hd.fits_of_makeDirectory hmake
        refine .inr (.inr ⟨q, ⟨hfits, .inl hfree⟩, fun rest => ?_⟩)
        rw [run_trans (hjudge rest), hrun rest, setMode_of_fits hfits]

theorem laid_run (root here : Path) (comps : List Bytes) (hd : d.Linkless)
    (hn : stepsEach * comps.length ≤ n) :
    Laid root here comps d (run root n (next here comps) d).1 (run root n (next here comps) d).2 := by
  induction comps generalizing here d n with
  | nil =>
    rw [next, run_finished]
    exact .done
  | cons c r ih =>
    have hlength : stepsEach * (c :: r).length = stepsEach * r.length + stepsEach := rfl
    obtain ⟨k, hk, hend⟩ := exists_run_laid root (here / c) hd
    obtain ⟨j, rfl⟩ := Nat.exists_eq_add_of_le (show k ≤ n by omega)
    rw [next]
    rcases hend with ⟨fault, hrun⟩ | ⟨hdirectory, hrun⟩ | ⟨q, hyields, hrun⟩
    · rw [run_trans (hrun r), run_failed]
      exact .stuck
    · rw [run_trans (hrun r)]
      exact .passed hdirectory (ih _ hd (by omega))
    · rw [run_trans (hrun r)]
      exact .filled hyields (ih _ (hd.put hyields.fits _) (by omega))

theorem laid_complete (root p : Path) (hd : d.Linkless) :
    Laid root ⟨[]⟩ p.components d (complete root p d).1 (complete root p d).2 :=
  laid_run root ⟨[]⟩ p.components hd (Nat.le_refl _)

/-! ## What changes -/

/-- Nothing changes but that directories for the owner alone come to be at the ends of first
components, where nothing stood or a file in the cache. -/
structure Paves (root here : Path) (comps : List Bytes) (d d' : Disk) : Prop where
  cwd : d'.cwd = d.cwd
  get? : ∀ q, d'.get? q = d.get? q ∨ ∃ pre, pre <+: comps ∧
    d'.find (here.along pre) = .ok (.at q (.dir Disk.ownerMode)) ∧
    (d.get? q = none ∨ (∃ x s, d.get? q = some (.file x s)) ∧ (here.along pre).isWithin root = true)

theorem Paves.get?_dir (h : Paves root here comps d d') {mode : Nat} (hq : d.get? q = some (.dir mode)) :
    d'.get? q = some (.dir mode) := by
  rcases h.get? q with heq | ⟨_, -, -, hnone | ⟨⟨x, s, hfile⟩, -⟩⟩
  · exact heq.trans hq
  · cases hnone.symm.trans hq
  · cases hfile.symm.trans hq

theorem Paves.keeps (h : Paves root here comps d d') (hd : d.Linkless) : Keeps d d' :=
  ⟨h.cwd, fun hq => ⟨_, h.get?_dir hq⟩, fun hq => absurd hq (hd.noLink _ _)⟩

theorem Laid.linkless (h : Laid root here comps d m d') (hd : d.Linkless) : d'.Linkless := by
  induction h with
  | done | stuck => exact hd
  | passed _ _ ih => exact ih hd
  | filled hyields _ ih => exact ih (hd.put hyields.fits _)

theorem Laid.paves (h : Laid root here comps d m d') (hd : d.Linkless) : Paves root here comps d d' := by
  induction h with
  | done | stuck => exact ⟨rfl, fun _ => .inl rfl⟩
  | @passed _ c r _ _ _ _ _ ih =>
    have hpaves := ih hd
    refine ⟨hpaves.cwd, ?_⟩
    intro q
    rcases hpaves.get? q with heq | ⟨pre, hpre, hfind⟩
    · exact .inl heq
    · exact .inr ⟨c :: pre, List.cons_prefix_cons.2 ⟨rfl, hpre⟩, hfind⟩
  | @filled _ c r q d _ _ hyields _ ih =>
    have hput : (d.put q (.dir Disk.ownerMode)).get? q = some (.dir Disk.ownerMode) :=
      Disk.get?_put_self hyields.fits.ne_nil
    have hd₁ := hd.put hyields.fits Disk.ownerMode
    have hpaves := ih hd₁
    refine ⟨hpaves.cwd, ?_⟩
    intro q'
    by_cases hq : q' = q
    · -- What is laid here is kept by what is laid behind it, so its path leads there in the end.
      subst hq
      have hlaid := hpaves.get?_dir hput
      exact .inr ⟨[c], ⟨r, rfl⟩,
        Disk.find_of_keeps (hpaves.keeps hd₁) (hyields.fits.find _) rfl hlaid rfl, hyields.gives⟩
    · have hother := hpaves.get? q'
      rw [Disk.get?_put_of_ne hq] at hother
      rcases hother with heq | ⟨pre, hpre, hfind⟩
      · exact .inl heq
      · exact .inr ⟨c :: pre, List.cons_prefix_cons.2 ⟨rfl, hpre⟩, hfind⟩

/-- Every component leads to a directory. -/
def Trodden (d : Disk) : Path → List Bytes → Prop
  | _, [] => True
  | here, c :: r => d.isDirectory (here / c) = true ∧ Trodden d (here / c) r

theorem Trodden.isDirectory (h : Trodden d here comps) (hne : comps ≠ []) :
    d.isDirectory (here.along comps) = true := by
  induction comps generalizing here with
  | nil => exact absurd rfl hne
  | cons c r ih =>
    by_cases hr : r = []
    · rw [hr]
      exact h.1
    · exact ih h.2 hr

/-- A maker that got to its end leaves directories only. -/
theorem Laid.trodden (h : Laid root here comps d m d') (hm : m = finished) (hd : d.Linkless) :
    Trodden d' here comps := by
  induction h with
  | done => trivial
  | stuck => cases hm
  | passed hdirectory hrest ih =>
    exact ⟨((hrest.paves hd).keeps hd).isDirectory hdirectory, ih hm hd⟩
  | filled hyields hrest ih =>
    have hd₁ := hd.put hyields.fits Disk.ownerMode
    have hlaid := Disk.isDirectory_of_find (hyields.fits.find Disk.ownerMode)
    exact ⟨((hrest.paves hd₁).keeps hd₁).isDirectory hlaid, ih hm hd₁⟩

/-- Where there are directories only, a maker passes them. -/
theorem run_of_trodden (h : Trodden d here comps) (hn : stepsEach * comps.length ≤ n) :
    run root n (next here comps) d = (finished, d) := by
  induction comps generalizing here n with
  | nil => exact run_finished root n d
  | cons c r ih =>
    have hlength : stepsEach * (c :: r).length = stepsEach * r.length + 5 := rfl
    obtain ⟨k, rfl⟩ := Nat.exists_eq_add_of_le (show 1 ≤ n by omega)
    rw [next, run_trans (run_one_of_isDirectory root h.1 r)]
    exact ih h.2 (by omega)

end Making

namespace Cache

variable {c : Cache} {p dest : Path} {d d' : Disk} {result : Except Fault Unit}
  {env host path : Bytes}

/-- What the making of directories at a path has changed, if anything. -/
structure Lays (c : Cache) (p : Path) (d d' : Disk) : Prop where
  linkless : d'.Linkless
  cwd : d'.cwd = d.cwd
  get? : ∀ q, d'.get? q = d.get? q ∨ ∃ pre, pre <+: p.components ∧
    d'.find (combine pre) = .ok (.at q (.dir Disk.ownerMode)) ∧
    (d.get? q = none ∨ (∃ x s, d.get? q = some (.file x s)) ∧ (combine pre).AtOrBelow c.root)

theorem laid_of_ensureDirectory (hd : d.Linkless) (h : c.ensureDirectory p d = (result, d')) :
    ∃ m, Making.Laid c.root ⟨[]⟩ p.components d m d' ∧ (result = .ok () → m = .finished) := by
  have hlaid := Making.laid_complete c.root p hd
  refine ⟨(Making.complete c.root p d).1, ?_⟩
  rw [ensureDirectory] at h
  split at h <;> (rename_i hcomplete; rw [hcomplete] at hlaid ⊢; cases h)
  · exact ⟨hlaid, fun _ => rfl⟩
  · exact ⟨hlaid, by rintro ⟨⟩⟩
  · exact ⟨hlaid, by rintro ⟨⟩⟩

theorem ensureDirectory_again_of_linkless (hd : d.Linkless) (h : c.ensureDirectory p d = (.ok (), d')) :
    c.ensureDirectory p d' = (.ok (), d') := by
  obtain ⟨m, hlaid, hm⟩ := laid_of_ensureDirectory hd h
  have hcomplete : Making.complete c.root p d' = (.finished, d') :=
    Making.run_of_trodden (hlaid.trodden (hm rfl) hd) (Nat.le_refl _)
  rw [ensureDirectory, hcomplete]

theorem prepare_again (hd : d.Linkless) (h : c.prepare p d = (.ok dest, d')) :
    c.prepare p d' = (.ok dest, d') := by
  obtain rfl := eq_of_prepare h
  rw [prepare_apply] at h ⊢
  cases hempty : dest.parent.isEmpty with
  | true => rfl
  | false =>
    rw [hempty, if_neg Bool.false_ne_true] at h
    rw [if_neg Bool.false_ne_true]
    split at h
    · rename_i hmade
      cases h
      rw [ensureDirectory_again_of_linkless hd hmade]
    · cases h

theorem components_ne_nil (h : p.text ≠ []) : p.components ≠ [] := by
  intro hnil
  obtain ⟨hfront, -⟩ := List.append_eq_nil_iff.1 hnil
  obtain ⟨habsolute, hnames⟩ := List.append_eq_nil_iff.1 hfront
  rw [Path.isAbsolute_of_names_nil hnames h] at habsolute
  cases habsolute

/-- Making directories at a path changes nothing but that directories for their owner alone come to be
at its components, where nothing stood or a file at or below the cache; and what was made stays as it
is when it is made again. -/
theorem ensureDirectory_lays (c : Cache) (hd : d.Linkless) (htext : c.root.text ≠ [])
    (hup : c.root.normal.head? ≠ some Path.dotDot) :
    (∀ p result d', p.text ≠ [] → c.ensureDirectory p d = (result, d') →
      c.Lays p d d' ∧ (result = .ok () →
        d'.isDirectory (combine p.components) = true ∧
        ((Disk.systemText p).length ≤ maxPath → d'.isDirectory p = true) ∧
        c.ensureDirectory p d' = (.ok (), d'))) ∧
    (∀ env path dest d', c.destination env path d = (.ok dest, d') →
      c.destination env path d' = (.ok dest, d')) ∧
    (∀ path dest d', c.localDestination path d = (.ok dest, d') →
      c.localDestination path d' = (.ok dest, d')) ∧
    ∀ env host path dest d', c.foreignDestination env host path d = (.ok dest, d') →
      c.foreignDestination env host path d' = (.ok dest, d') := by
  refine ⟨?_, fun _ _ _ _ => prepare_again hd, fun _ _ _ => prepare_again hd,
    fun _ _ _ _ _ => prepare_again hd⟩
  intro p result d' hp h
  obtain ⟨m, hlaid, hm⟩ := laid_of_ensureDirectory hd h
  have hpaves := hlaid.paves hd
  refine ⟨⟨hlaid.linkless hd, hpaves.cwd, ?_⟩, ?_⟩
  · intro q
    rcases hpaves.get? q with heq | ⟨pre, hpre, hfind, hnone | ⟨hfile, hwithin⟩⟩
    · exact .inl heq
    · exact .inr ⟨pre, hpre, hfind, .inl hnone⟩
    · have hbelow := Path.atOrBelow_of_isWithin hwithin htext hup
      exact .inr ⟨pre, hpre, hfind, .inr ⟨hfile, hbelow⟩⟩
  · rintro rfl
    have hdirectory := (hlaid.trodden (hm rfl) hd).isDirectory (components_ne_nil hp)
    refine ⟨hdirectory, fun hshort => ?_, ensureDirectory_again_of_linkless hd h⟩
    exact (hlaid.linkless hd).isDirectory_of_names hdirectory (Path.isAbsolute_combine p).symm
      (Path.names_combine p).symm hshort

/-- A cache with an old file in it, and one beside it. -/
def oldFiles : Disk :=
  ⟨[(["cache"], .dir Disk.openMode), (["cache", "a"], .file false "old"), (["x"], .file false "old")],
    []⟩

theorem linkless_oldFiles : oldFiles.Linkless where
  tree := Disk.isTree_of_entries (by decide)
  cwd := ⟨_, rfl⟩
  noLink := Disk.get?_ne_link_of_entries (by decide)

/-- A way through a new directory, which is left at once, to an old file; and one that leaves the cache
and comes to another. -/
theorem ensureDirectory_lays_stepping :
    oldFiles.Linkless ∧ (Path.mk "cache").text ≠ [] ∧
      (Path.mk "cache").normal.head? ≠ some Path.dotDot ∧
      (∃ d', (Cache.mk "cache").ensureDirectory "./cache/b/../a/c" oldFiles = (.ok (), d') ∧
        (Cache.mk "cache").Lays "./cache/b/../a/c" oldFiles d' ∧
        d'.isDirectory "./cache/b/../a/c" = true ∧
        (Cache.mk "cache").ensureDirectory "./cache/b/../a/c" d' = (.ok (), d')) ∧
      ∃ fault d', (Cache.mk "cache").ensureDirectory "cache/b/../../x" oldFiles = (.error fault, d') ∧
        (Cache.mk "cache").Lays "cache/b/../../x" oldFiles d' := by
  have htext : (Cache.mk "cache").root.text ≠ [] := by decide
  have hup : (Cache.mk "cache").root.normal.head? ≠ some Path.dotDot := by decide
  obtain ⟨hlays, -⟩ := ensureDirectory_lays (Cache.mk "cache") linkless_oldFiles htext hup
  refine ⟨linkless_oldFiles, htext, hup, ?_, ?_⟩
  · have hmade : ((Cache.mk "cache").ensureDirectory "./cache/b/../a/c" oldFiles).1 = .ok () := by
      decide +kernel
    obtain ⟨hchanges, hok⟩ := hlays "./cache/b/../a/c" _ _ (by decide) rfl
    obtain ⟨-, hdirectory, hagain⟩ := hok hmade
    exact ⟨_, Prod.ext hmade rfl, hchanges, hdirectory (by decide), hagain⟩
  · have hfails : ((Cache.mk "cache").ensureDirectory "cache/b/../../x" oldFiles).1 =
        .error (.store (.noDirectory "cache/b/../../x")) := by
      decide +kernel
    obtain ⟨hchanges, -⟩ := hlays "cache/b/../../x" _ _ (by decide) rfl
    exact ⟨_, _, Prod.ext hfails rfl, hchanges⟩

/-- Two names with more slashes between them than a path can have bytes. -/
def farApart : Path := ⟨("cache/a" : Bytes) ++ List.replicate 4095 slash ++ ("b" : Bytes)⟩

theorem length_farApart : maxPath < farApart.text.length := by
  have hfront : (("cache/a" : Bytes) ++ List.replicate 4095 slash).length = 7 + 4095 := by
    rw [List.length_append, List.length_replicate]
    rfl
  rw [farApart, List.length_append, hfront]
  decide

theorem names_farApart : farApart.names = ["cache", "a", "b"] := by
  have hfront := Path.names_append_replicate_slash "cache/a" 4094
  rw [farApart, List.replicate_succ', ← List.append_assoc, List.append_assoc _ [slash],
    List.singleton_append, Path.names_mk_append_slash, hfront]
  decide

theorem components_farApart : farApart.components = ["cache", "a", "b"] := by
  have hlast : farApart.text.getLast? = some (Bytes.ascii 'b') :=
    Path.getLast?_append_of_ne_nil _ (by decide)
  have hends : farApart.endsInSlash = false := by
    rw [Path.endsInSlash, hlast]
    rfl
  have habsolute : farApart.isAbsolute = false := rfl
  rw [Path.components, names_farApart, hends, habsolute]
  rfl

/-- Where all components of a path are made, the path itself can still be too long to be looked up. -/
theorem laid_but_not_found :
    oldFiles.Linkless ∧ (Cache.mk "cache").root.text ≠ [] ∧
      (Cache.mk "cache").root.normal.head? ≠ some Path.dotDot ∧ farApart.text ≠ [] ∧
      ((Cache.mk "cache").ensureDirectory farApart oldFiles).1 = .ok () ∧
      ((Cache.mk "cache").ensureDirectory farApart oldFiles).2.isDirectory farApart = false := by
  have hmade : ((Cache.mk "cache").ensureDirectory farApart oldFiles).1 = .ok () := by
    rw [ensureDirectory, Making.complete, Making.start, components_farApart]
    decide +kernel
  have htext : farApart.text ≠ [] := List.append_ne_nil_of_right_ne_nil _ (by decide)
  have hnul : 0 ∉ farApart.text := Path.no_nul_of_names (by rw [names_farApart]; decide)
  refine ⟨linkless_oldFiles, by decide, by decide, htext, hmade, ?_⟩
  apply Bool.eq_false_iff.2
  intro hdirectory
  obtain ⟨q, m, hfind⟩ := Disk.find_of_isDirectory hdirectory
  exact Nat.not_lt.2 (Disk.short_of_find hnul hfind) length_farApart

end Cache

end FileCourier
