import FileCourier.Proofs.Disk.Linkless
import FileCourier.Proofs.LocalRoots.Fetching
import FileCourier.Proofs.Path.Lexical

/-!
# Lookups below local roots

A path that does not step up above its beginning leads, if anywhere, to a file below one of the roots
of the environment (`lookups_stay_below`). Only slashes are taken from the front of a path, so a step
up leads out of the root (`lookups_leave`).
-/

namespace FileCourier

namespace LocalRoots

variable {σ : Type} {d : Disk} {s : Settings} {path env relative : Bytes} {p root : Path} {w : World σ}

/-- Whether a path, seen from a root, steps up above it by its spelling. -/
def climbs (path : Bytes) : Bool :=
  (relative? path).any fun relative => (Path.mk relative).normalNames.contains Path.dotDot

theorem relative_of_relative? (h : relative? path = some relative) :
    (Path.mk relative).isAbsolute = false ∧ relative ≠ [] := by
  rw [relative?] at h
  split at h
  · cases h
  · rename_i hne
    cases h
    exact ⟨Cache.isAbsolute_dropSlashes _, fun hnil => hne hnil⟩

/-- What is found is a file behind one of the roots. -/
theorem exists_of_find (h : find s path env d = some p) : ∃ relative, relative? path = some relative ∧
    ∃ root ∈ rootsOf s env, p = root / relative ∧ d.isFile p = true := by
  obtain ⟨relative, hrelative, hfind⟩ := Option.bind_eq_some_iff.1 h
  obtain ⟨root, hroot, rfl⟩ := List.mem_map.1 (List.mem_of_find?_eq_some hfind)
  exact ⟨relative, hrelative, root, hroot, rfl, List.find?_some hfind⟩

/-- A file is strictly below the root from which its path goes on, since no file is at the end of a
path that comes back to the root. A path with a NUL is not read to its end. -/
theorem strictlyBelow_of_isFile (hd : d.Grounded) (hrel : (Path.mk relative).isAbsolute = false)
    (hne : relative ≠ []) (hup : Path.dotDot ∉ (Path.mk relative).normalNames)
    (hfile : d.isFile (root / relative) = true) (hnul : 0 ∉ (root / relative : Path).text) :
    (root / relative : Path).StrictlyBelow root := by
  apply Path.strictlyBelow_join root hrel hup
  have hnames : (Path.mk relative).names ≠ [] := by
    intro hnil
    have habsolute := Path.isAbsolute_of_names_nil hnil hne
    rw [hrel] at habsolute
    cases habsolute
  have hsplit := (List.dropLast_concat_getLast hnames).symm
  -- A last name that is a step leads to a directory, any other stays in the simplest spelling.
  by_cases hstep : (Path.mk relative).names.getLast hnames = Path.dot ∨
      (Path.mk relative).names.getLast hnames = Path.dotDot
  · have hjoin : (root / relative : Path).names = (root.names ++ (Path.mk relative).names.dropLast) ++
        [(Path.mk relative).names.getLast hnames] := by
      rw [List.append_assoc, ← hsplit]
      exact Path.names_join root hrel
    rw [hd.isFile_of_step hnul hjoin hstep] at hfile
    cases hfile
  · obtain ⟨hdot, hdotDot⟩ := not_or.1 hstep
    exact Path.normalNames_ne_nil hsplit hdot hdotDot

theorem digest_apply (l : LocalRoots σ) (path env : Bytes) (w : World σ) :
    l.source.digest (VirtualPath.mark ++ path) env w =
      (match find l.settings path env w.disk with
        | none => .ok none
        | some found => (DigestRecord.ofFile l.digests w.disk found l.settings.hashType).map some, w) := by
  have hstrip := VirtualPath.strip?_eq_some_iff.2 (rfl : VirtualPath.mark ++ path = _)
  change l.digest (VirtualPath.mark ++ path) env w = _
  rw [digest, Action.get_bind, hstrip]
  dsimp only
  cases find l.settings path env w.disk with
  | none => rfl
  | some found =>
    dsimp only
    cases DigestRecord.ofFile l.digests w.disk found l.settings.hashType <;> rfl

/-- A lookup of a path that does not step up above its beginning comes to nothing but files below a
root of the environment; and what is fetched or digested is what the lookup comes to. -/
theorem lookups_stay_below (l : LocalRoots σ) (env : Bytes) (hd : w.disk.Grounded)
    (hpath : climbs path = false) :
    (∀ p, find l.settings path env w.disk = some p → w.disk.isFile p = true ∧
      ∃ root ∈ rootsOf l.settings env, p.AtOrBelow root ∧ (0 ∉ p.text → p.StrictlyBelow root)) ∧
    (∀ dest makeParents gzip,
      l.source.getFile ⟨VirtualPath.mark ++ path, dest, makeParents, env, gzip⟩ w =
        (.ok (match find l.settings path env w.disk with
          | some p => .stored p
          | none => .notFound), w)) ∧
    l.source.digest (VirtualPath.mark ++ path) env w =
      (match find l.settings path env w.disk with
        | none => .ok none
        | some p => (DigestRecord.ofFile l.digests w.disk p l.settings.hashType).map some, w) := by
  refine ⟨?_, ?_, digest_apply l path env w⟩
  · intro p hfind
    obtain ⟨relative, hrelative, root, hroot, rfl, hfile⟩ := exists_of_find hfind
    obtain ⟨hrel, hne⟩ := relative_of_relative? hrelative
    have hup : Path.dotDot ∉ (Path.mk relative).normalNames := by
      rw [climbs, hrelative] at hpath
      simpa using hpath
    exact ⟨hfile, root, hroot, Path.atOrBelow_join root hrel hup,
      strictlyBelow_of_isFile hd hrel hne hup hfile⟩
  · intro dest makeParents gzip
    exact getFile_apply l.settings path env dest makeParents gzip w

/-- Two roots for the environment `base`, and a file beside them. -/
def beside : World Unit where
  disk := ⟨[(["one"], .dir Disk.openMode), (["one", "d"], .dir Disk.openMode),
    (["one", "f"], .file false "below"), (["two"], .dir Disk.openMode),
    (["two", "f"], .file false "last"), (["secret"], .file false "beside")], []⟩
  beyond := ()

theorem grounded_beside : beside.disk.Grounded where
  tree := Disk.isTree_of_entries (by decide)
  cwd := ⟨_, rfl⟩

theorem unlinked_beside (q : Place) (t : Bytes) : beside.disk.get? q ≠ some (.link t) :=
  Disk.get?_ne_link_of_entries (by decide) q t

/-- A path with an escape, more slashes and a step back is looked up below the roots. -/
theorem lookups_stay_below_stepping :
    beside.disk.Grounded ∧ climbs "|//d/.././/f" = false ∧
      find twoRoots.settings "|//d/.././/f" "base" beside.disk = some ⟨"one/d/.././/f"⟩ ∧
      ∃ root ∈ rootsOf twoRoots.settings "base",
        (Path.mk "one/d/.././/f").AtOrBelow root ∧
          (0 ∉ (Path.mk "one/d/.././/f").text → (Path.mk "one/d/.././/f").StrictlyBelow root) := by
  have hpath : climbs "|//d/.././/f" = false := by decide
  have hfind : find twoRoots.settings "|//d/.././/f" "base" beside.disk = some ⟨"one/d/.././/f"⟩ := by
    decide
  obtain ⟨hbelow, -⟩ := lookups_stay_below twoRoots "base" grounded_beside hpath
  exact ⟨grounded_beside, hpath, hfind, (hbelow _ hfind).2⟩

/-- Paths, and where they lead from the roots. -/
def leaving : List (Bytes × Path) :=
  [("../secret", ⟨"one/../secret"⟩), ("|/../secret", ⟨"one/../secret"⟩),
    ("d/../../secret", ⟨"one/d/../../secret"⟩)]

/-- A step up leads to the file beside the roots, also behind an escape or a directory. -/
theorem lookups_leave :
    beside.disk.Grounded ∧ (∀ q t, beside.disk.get? q ≠ some (.link t)) ∧
      ∀ x ∈ leaving, find twoRoots.settings x.1 "base" beside.disk = some x.2 ∧
        (∀ root ∈ rootsOf twoRoots.settings "base", ¬x.2.AtOrBelow root) ∧
        twoRoots.source.getFile { path := VirtualPath.mark ++ x.1, env := "base" } beside =
          (.ok (.stored x.2), beside) ∧
        twoRoots.source.digest (VirtualPath.mark ++ x.1) "base" beside =
          ((DigestRecord.ofFile twoRoots.digests beside.disk x.2 twoRoots.settings.hashType).map some,
            beside) := by
  refine ⟨grounded_beside, unlinked_beside, ?_⟩
  intro x hx
  have hleaves : ∀ x ∈ leaving, find twoRoots.settings x.1 "base" beside.disk = some x.2 ∧
      ∀ root ∈ rootsOf twoRoots.settings "base", ¬x.2.AtOrBelow root := by
    decide
  obtain ⟨hfind, hroots⟩ := hleaves x hx
  have hget : twoRoots.source.getFile { path := VirtualPath.mark ++ x.1, env := "base" } beside =
      _ := getFile_apply twoRoots.settings x.1 "base" [] false 0 beside
  refine ⟨hfind, hroots, ?_, ?_⟩
  · rw [hget, hfind]
  · rw [digest_apply, hfind]

end LocalRoots

end FileCourier
