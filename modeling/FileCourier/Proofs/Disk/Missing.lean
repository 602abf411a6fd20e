import FileCourier.Proofs.Disk.Directories
import FileCourier.Proofs.Disk.Listing
import FileCourier.Proofs.Disk.Modes
import Mathlib.Logic.Function.Iterate

/-!
# What is missing on the way to a path

Before a directory is made, the path is walked up from its end to see which directories are missing
(`Lacks`). Behind a directory that is there, these are the ones along the names behind it
(`lacks_along`), and behind a path that is not there (`Vacant`) everything that is missing for that
path as well. Making them only adds entries (`Grounded.makeDirectories`).
-/

namespace FileCourier.Disk

open FileCourier.Path (Proper)

variable {d d' d'' : Disk} {p q : Place} {names ns : List Bytes} {c : Bytes} {e : Entry}
  {here path : Path} {l : List Path} {n m fuel room : Nat} {x : Bool} {s : Bytes}

/-! ## What is not there -/

/-- Where a path leads at which nothing stands, and which can be looked up. -/
inductive Vacant : Except Errno Spot → Prop
  | free (parent : Place) (name : Bytes) : Vacant (.ok (.free parent name))
  | missing : Vacant (.error .missing)
  | notDirectory : Vacant (.error .notDirectory)

/-- Behind a name at which nothing stands, nothing stands either. -/
theorem vacant_follow_append (htree : d.IsTree) (hp : ∃ m, d.get? p = some (.dir m))
    (h : Vacant (d.follow true n p names)) (rest : List Bytes) :
    Vacant (d.follow true n p (names ++ rest)) := by
  by_cases hrest : rest = []
  · rwa [hrest, List.append_nil]
  have hdir : ∀ q m, d.follow true n p names ≠ .ok (.at q (.dir m)) := fun q m hdir => by
    rw [hdir] at h
    cases h
  rw [follow_append_of_ne_dir htree hp hdir hrest]
  generalize d.follow true n p names = reached at h
  cases h with
  | free | missing => exact .missing
  | notDirectory => exact .notDirectory

/-- When nothing stands at a path, its names lead to nothing, or to a file if a slash follows them. -/
theorem vacant_names_of_find (htree : d.IsTree)
    (hbase : ∃ m, d.get? (d.base here.isAbsolute) = some (.dir m)) (hnul : 0 ∉ here.text)
    (htext : here.text ≠ []) (h : Vacant (d.find here)) :
    Vacant (d.follow true maxLinks (d.base here.isAbsolute) here.names) ∨
      ∃ q x s, d.follow true maxLinks (d.base here.isAbsolute) here.names =
        .ok (.at q (.file x s)) := by
  have hfollow : Vacant (d.follow true maxLinks (d.base here.isAbsolute)
      (here.names ++ if here.endsInSlash then [Path.dot] else [])) := by
    rw [find_of_no_nul hnul, locate, List.isEmpty_eq_false_iff.2 htext, if_neg (by decide)] at h
    split at h
    · cases h
    · exact h
  cases hends : here.endsInSlash with
  | false =>
    rw [hends, if_neg (by decide), List.append_nil] at hfollow
    exact .inl hfollow
  | true =>
    rw [hends, if_pos rfl] at hfollow
    by_cases hdir : ∃ q m, d.follow true maxLinks (d.base here.isAbsolute) here.names =
        .ok (.at q (.dir m))
    · -- The dot for the slash leads from a directory to itself.
      obtain ⟨q, m, hdir⟩ := hdir
      obtain ⟨k, hk⟩ := follow_append hdir (List.cons_ne_nil Path.dot []) true
      have hq : d.get? q = some (.dir m) := spot_of_follow hdir
      have hdot := follow_of_passes (d := d) (Passes.dot (.nil (p := q))) true k []
      rw [List.append_nil] at hdot
      rw [hk, hdot, follow, (Ends.here hq).reach_eq] at hfollow
      cases hfollow
    · rw [follow_append_of_ne_dir htree hbase (fun q m hq => hdir ⟨q, m, hq⟩)
        (List.cons_ne_nil _ _)] at hfollow
      cases hreached : d.follow true maxLinks (d.base here.isAbsolute) here.names with
      | error e =>
        rw [hreached] at hfollow
        cases hfollow with
        | missing => exact .inl .missing
        | notDirectory => exact .inl .notDirectory
      | ok spot =>
        cases spot with
        | free parent c => exact .inl (.free parent c)
        | «at» q e =>
          have hlink := not_link_of_follow htree hbase hreached
          cases e with
          | file x s => exact .inr ⟨q, x, s, rfl⟩
          | dir m => exact absurd ⟨q, m, hreached⟩ hdir
          | link t => cases hlink

/-! ## What is missing above a path -/

/-- The directory that is to be made for a path itself. A step to a directory needs none. -/
def own (path : Path) : List Path :=
  if path.filename = Path.dot ∨ path.filename = Path.dotDot then [] else [path]

/-- What is missing on the way to a path, found by so many steps up. -/
inductive Lacks (d : Disk) : Nat → Path → List Path → Prop
  | alone {path : Path} : path.parent.isEmpty = true → Lacks d 1 path (own path)
  | inside {path : Path} {q : Place} {m : Nat} : path.parent.isEmpty = false →
      d.find path.parent = .ok (.at q (.dir m)) → Lacks d 1 path (own path)
  | top {path : Path} : path.parent.isEmpty = false → Vacant (d.find path.parent) →
      path.parent = path → Lacks d 1 path (own path)
  | above {path : Path} {n : Nat} {l : List Path} : path.parent.isEmpty = false →
      Vacant (d.find path.parent) → path.parent ≠ path → Lacks d n path.parent l →
      Lacks d (n + 1) path (own path ++ l)

/-- One step up. -/
theorem missing_succ (d : Disk) (fuel room : Nat) (path : Path) : d.missing (fuel + 1) room path =
    if room < (own path).length then .error .tooLong
    else if path.parent.isEmpty then .ok (own path)
    else
      match d.find path.parent with
      | .ok (.at _ (.dir _)) => .ok (own path)
      | .ok (.at _ _) => .error .notDirectory
      | .ok (.free _ _) | .error .missing | .error .notDirectory =>
        if path.parent = path then .ok (own path)
        else (d.missing fuel (room - (own path).length) path.parent).map (own path ++ ·)
      | .error e => .error e := by
  have hmap : (d.missing fuel (room - (own path).length) path.parent).map (own path ++ ·) =
      d.missing fuel (room - (own path).length) path.parent >>= fun l => pure (own path ++ l) := by
    cases d.missing fuel (room - (own path).length) path.parent <;> rfl
  rw [hmap]
  rfl

theorem lacks_of_missing (h : d.missing fuel room path = .ok l) :
    l.length ≤ room ∧ ∃ n ≤ fuel, Lacks d n path l := by
  induction fuel generalizing room path l with
  | zero => cases h
  | succ fuel ih =>
    rw [missing_succ] at h
    split at h
    · cases h
    rename_i hroom
    have once (h : Except.ok (own path) = (.ok l : Except Errno (List Path)))
        (hlacks : Lacks d 1 path (own path)) :
        l.length ≤ room ∧ ∃ n ≤ fuel + 1, Lacks d n path l := by
      cases h
      exact ⟨Nat.not_lt.1 hroom, 1, Nat.succ_le_succ (Nat.zero_le fuel), hlacks⟩
    split at h
    · exact once h (.alone ‹_›)
    rename_i hempty
    have hempty : path.parent.isEmpty = false := Bool.eq_false_iff.2 hempty
    have climbed (hvacant : Vacant (d.find path.parent))
        (h : (if path.parent = path then .ok (own path)
          else (d.missing fuel (room - (own path).length) path.parent).map (own path ++ ·)) =
            (.ok l : Except Errno (List Path))) :
        l.length ≤ room ∧ ∃ n ≤ fuel + 1, Lacks d n path l := by
      split at h
      · exact once h (.top hempty hvacant ‹_›)
      · rename_i hne
        cases hrest : d.missing fuel (room - (own path).length) path.parent with
        | error e =>
          rw [hrest] at h
          cases h
        | ok rest =>
          rw [hrest] at h
          cases h
          obtain ⟨hlength, n, hn, hlacks⟩ := ih hrest
          refine ⟨?_, n + 1, Nat.succ_le_succ hn, .above hempty hvacant hne hlacks⟩
          rw [List.length_append]
          omega
    split at h
    · exact once h (.inside hempty ‹_›)
    · cases h
    · rename_i hfind
      exact climbed (hfind ▸ .free _ _) h
    · rename_i hfind
      exact climbed (hfind ▸ .missing) h
    · rename_i hfind
      exact climbed (hfind ▸ .notDirectory) h
    · cases h

theorem missing_succ_of_vacant (hempty : path.parent.isEmpty = false)
    (hvacant : Vacant (d.find path.parent)) (hroom : (own path).length ≤ room) :
    d.missing (fuel + 1) room path =
      if path.parent = path then .ok (own path)
      else (d.missing fuel (room - (own path).length) path.parent).map (own path ++ ·) := by
  rw [missing_succ, if_neg (Nat.not_lt.2 hroom), hempty, if_neg (by decide)]
  generalize d.find path.parent = reached at hvacant
  cases hvacant with
  | free | missing | notDirectory => rfl

theorem missing_of_lacks (h : Lacks d n path l) (hfuel : n ≤ fuel) (hroom : l.length ≤ room) :
    d.missing fuel room path = .ok l := by
  induction h generalizing fuel room with
  | alone hempty =>
    obtain ⟨fuel, rfl⟩ := Nat.exists_eq_add_of_le' hfuel
    rw [missing_succ, if_neg (Nat.not_lt.2 hroom), if_pos hempty]
  | inside hempty hfind =>
    obtain ⟨fuel, rfl⟩ := Nat.exists_eq_add_of_le' hfuel
    rw [missing_succ, if_neg (Nat.not_lt.2 hroom), hempty, if_neg (by decide), hfind]
  | top hempty hvacant htop =>
    obtain ⟨fuel, rfl⟩ := Nat.exists_eq_add_of_le' hfuel
    rw [missing_succ_of_vacant hempty hvacant hroom, if_pos htop]
  | @above path n l hempty hvacant hne _ ih =>
    obtain ⟨fuel, rfl⟩ := Nat.exists_eq_add_of_le' hfuel
    rw [List.length_append] at hroom
    have hrest : d.missing (fuel + n) (room - (own path).length) path.parent = .ok l :=
      ih (Nat.le_add_left n fuel) (by omega)
    rw [← Nat.add_assoc, missing_succ_of_vacant hempty hvacant (by omega), if_neg hne, hrest]
    rfl

theorem length_own_le (path : Path) : (own path).length ≤ 1 := by
  rw [own]
  split
  · exact Nat.zero_le 1
  · exact Nat.le_refl 1

/-- All that is missing is above the path, or the path itself. -/
theorem Lacks.exists_parent (h : Lacks d n path l) (hp : here ∈ l) :
    ∃ k, here = Path.parent^[k] path := by
  have atPath {path : Path} (hp : here ∈ own path) : here = path := by
    rw [own] at hp
    split at hp
    · cases hp
    · exact List.mem_singleton.1 hp
  induction h with
  | alone | inside | top => exact ⟨0, atPath hp⟩
  | above _ _ _ _ ih =>
    rcases List.mem_append.1 hp with hp | hp
    · exact ⟨0, atPath hp⟩
    · obtain ⟨k, hk⟩ := ih hp
      exact ⟨k + 1, hk⟩

/-- No more is missing than the path has names. -/
theorem Lacks.length_le (h : Lacks d n path l) (htext : path.text ≠ [])
    (hlast : path.text.getLast? ≠ some slash) : l.length ≤ path.names.length := by
  induction h with
  | @alone path | @inside path | @top path =>
    obtain ⟨c, -, hnames⟩ := Path.names_eq_upToSlash_append htext hlast
    rw [show path.names = _ from hnames, List.length_append]
    exact Nat.le_trans (length_own_le path) (Nat.le_add_left 1 _)
  | @above path n l hempty hvacant hne _ ih =>
    obtain ⟨c, -, hnames⟩ := Path.names_eq_upToSlash_append htext hlast
    obtain ⟨above, k, seg, -, habove, hlast', hparent⟩ := Path.exists_parent_eq hnames hlast
    split at hparent
    · -- The root is a directory.
      rw [hparent] at hvacant
      cases hvacant
    · rw [hparent] at ih hempty
      have hrest := ih (List.isEmpty_eq_false_iff.1 hempty) hlast'
      rw [habove] at hrest
      rw [show path.names = _ from hnames, List.length_append, List.length_append,
        Nat.add_comm (own path).length]
      exact Nat.add_le_add hrest (length_own_le path)

/-! ## What is missing along names -/

/-- The paths from one on along names, each behind the one before. -/
def chain (here : Path) : List Bytes → List Path
  | [] => []
  | c :: ns => here / c :: chain (here / c) ns

theorem length_chain (here : Path) (ns : List Bytes) : (chain here ns).length = ns.length := by
  induction ns generalizing here with
  | nil => rfl
  | cons c ns ih => exact congrArg (· + 1) (ih (here / c))

theorem own_join (here : Path) (hc : Proper c) : own (here / c) = [here / c] := by
  have hends : (here / c).endsInSlash = false := by
    have hlast : (here / c).text.getLast? = c.getLast? :=
      Path.getLast?_join (q := ⟨c⟩) here hc.ne_nil
    rw [Path.endsInSlash, hlast, beq_eq_false_iff_ne.2 hc.plain.last, Bool.false_and]
  have hname : (here / c).filename = c := by
    have hjoin : (here / c).names = here.names ++ (Path.mk c).names :=
      Path.names_join here hc.isAbsolute
    rw [Path.filename, hends, hjoin, hc.names]
    simp
  rw [own, hname, if_neg (not_or.2 ⟨hc.ne_dot, hc.ne_dotDot⟩)]

/-- The path above a joined name leads where the names lead that it was joined to. -/
theorem find_parent_join (hc : Proper c) (htext : here.text ≠ []) (hnul : 0 ∉ here.text)
    (hshort : here.text.length ≤ maxPath) : d.find (here / c).parent =
      d.follow true maxLinks (d.base here.isAbsolute) here.names := by
  obtain ⟨hreads, hne, hlength⟩ := Path.reads_parent_join hc htext hnul
  exact find_of_reads hreads hne (Nat.le_trans hlength hshort)

theorem short_of_join (hc : Proper c) (hshort : (here / c).text.length ≤ maxPath) :
    here.text.length ≤ maxPath := by
  have hjoin : here.text.length + c.length ≤ (here / c).text.length :=
    Path.le_length_join here hc.isAbsolute
  omega

/-- Behind a directory only the name is missing. -/
theorem lacks_join_of_dir (hc : Proper c) (htext : here.text ≠ []) (hnul : 0 ∉ here.text)
    (hshort : (here / c).text.length ≤ maxPath)
    (hdir : d.follow true maxLinks (d.base here.isAbsolute) here.names = .ok (.at q (.dir m))) :
    Lacks d 1 (here / c) [here / c] := by
  obtain ⟨-, hne, -⟩ := Path.reads_parent_join hc htext hnul
  have hfind := (find_parent_join hc htext hnul (short_of_join hc hshort)).trans hdir
  exact own_join here hc ▸ .inside (List.isEmpty_eq_false_iff.2 hne) hfind

/-- Behind what is not there, the name is missing with all that is missing above it. -/
theorem lacks_join_of_vacant (hc : Proper c) (htext : here.text ≠ []) (hnul : 0 ∉ here.text)
    (hshort : (here / c).text.length ≤ maxPath)
    (hvacant : Vacant (d.follow true maxLinks (d.base here.isAbsolute) here.names))
    (h : Lacks d n (here / c).parent l) : Lacks d (n + 1) (here / c) (here / c :: l) := by
  obtain ⟨-, hne, hlength⟩ := Path.reads_parent_join hc htext hnul
  have hfind := find_parent_join (d := d) hc htext hnul (short_of_join hc hshort)
  have hup : (here / c).parent ≠ here / c := fun heq => by
    have hjoin : here.text.length + c.length ≤ (here / c).text.length :=
      Path.le_length_join here hc.isAbsolute
    have hpos := List.length_pos_iff.2 hc.ne_nil
    rw [heq] at hlength
    omega
  have hlacks := Lacks.above (List.isEmpty_eq_false_iff.2 hne) (hfind ▸ hvacant) hup h
  rwa [own_join here hc] at hlacks

/-- Along names behind a name that is not there, everything is missing. -/
theorem lacks_along (htree : d.IsTree) (hbase : ∃ m, d.get? (d.base here.isAbsolute) = some (.dir m))
    (htext : here.text ≠ []) (hlast : here.text.getLast? ≠ some slash) (hnul : 0 ∉ here.text)
    (hns : ∀ c ∈ ns, Proper c) (hshort : (here.along ns).text.length ≤ maxPath)
    (hvacant : Vacant (d.follow true maxLinks (d.base here.isAbsolute) here.names))
    (h : Lacks d n here l) :
    Lacks d (n + ns.length) (here.along ns) ((chain here ns).reverse ++ l) := by
  induction ns generalizing here n l with
  | nil => exact h
  | cons c ns ih =>
    have hc := hns c List.mem_cons_self
    have hrest := fun c' hc' => hns c' (List.mem_cons_of_mem c hc')
    have hle := Path.le_length_along (here / c) hrest
    have hmid : (here / c).text.length ≤ maxPath :=
      Nat.le_trans (Nat.le_of_add_right_le hle) hshort
    have hjoin : (here / c).names = here.names ++ (Path.mk c).names :=
      Path.names_join here hc.isAbsolute
    have habsolute : (here / c).isAbsolute = here.isAbsolute := Path.isAbsolute_join here hc.isAbsolute
    have hlast' : (here / c).text.getLast? = c.getLast? :=
      Path.getLast?_join (q := ⟨c⟩) here hc.ne_nil
    have hlacks : Lacks d (n + 1) (here / c) (here / c :: l) := by
      refine lacks_join_of_vacant hc htext hnul hmid hvacant ?_
      rwa [Path.parent_join_of_last hc htext hlast]
    have hall : Lacks d (n + 1 + ns.length) ((here / c).along ns)
        ((chain (here / c) ns).reverse ++ here / c :: l) := ih (habsolute ▸ hbase)
      (Path.text_join_ne_nil (q := ⟨c⟩) here hc.ne_nil) (hlast' ▸ hc.plain.last)
      (Path.no_nul_join hnul hc) hrest hshort
      (by rw [habsolute, hjoin]; exact vacant_follow_append htree hbase hvacant _) hlacks
    rw [chain, List.reverse_cons, List.append_assoc, List.length_cons, Path.along_cons,
      Nat.add_comm ns.length, ← Nat.add_assoc]
    exact hall

/-! ## Making what is missing -/

theorem makeEach_append (h : d.makeEach l = (.ok (), d')) (l' : List Path) :
    d.makeEach (l ++ l') = d'.makeEach l' := by
  induction l generalizing d with
  | nil =>
    cases h
    rfl
  | cons path l ih =>
    rw [makeEach] at h
    rw [List.cons_append, makeEach]
    split at h
    · exact ih h
    · split at h
      · rename_i hdir
        rw [if_pos hdir]
        exact ih h
      · cases h
    · cases h

theorem makeDirectories_of_vacant (hempty : path.isEmpty = false) (h : Vacant (d.find path)) :
    d.makeDirectories path =
      match d.missing (path.text.length + 1) maxMissing
        (if path.endsInSlash then path.parent else path) with
      | .error e => (.error e, d)
      | .ok l => d.makeEach l.reverse := by
  rw [Disk.makeDirectories, hempty, if_neg (by decide)]
  generalize d.find path = reached at h
  cases h with
  | free | missing | notDirectory => rfl

/-- What a directory that was made tells: nothing stood at the path, and the missing directories were
made one after the other. -/
theorem vacant_of_makeDirectories (h : d.makeDirectories path = (.ok (), d'))
    (habsent : d.isPresent path = false) : path.text ≠ [] ∧ Vacant (d.find path) ∧
      ∃ l, d.missing (path.text.length + 1) maxMissing
        (if path.endsInSlash then path.parent else path) = .ok l ∧
          d.makeEach l.reverse = (.ok (), d') := by
  have hempty : path.isEmpty = false := by
    cases hempty : path.isEmpty with
    | false => rfl
    | true =>
      rw [Disk.makeDirectories, hempty, if_pos rfl] at h
      cases h
  have hvacant : Vacant (d.find path) := by
    rw [Disk.makeDirectories, hempty, if_neg (by decide)] at h
    cases hfind : d.find path with
    | ok spot =>
      cases spot with
      | free parent c => exact .free parent c
      | «at» q e =>
        rw [isPresent, entryAt?, hfind] at habsent
        cases habsent
    | error e =>
      rw [hfind] at h
      cases e with
      | missing => exact .missing
      | notDirectory => exact .notDirectory
      | _ => cases h
  refine ⟨List.isEmpty_eq_false_iff.1 hempty, hvacant, ?_⟩
  rw [makeDirectories_of_vacant hempty hvacant] at h
  split at h
  · cases h
  · rename_i l hmissing
    exact ⟨l, hmissing, h⟩

/-- Entries are only added. -/
structure Grows (d d' : Disk) : Prop where
  cwd : d'.cwd = d.cwd
  get? : ∀ {q e}, d.get? q = some e → d'.get? q = some e

theorem Grows.refl (d : Disk) : Grows d d := ⟨rfl, id⟩

theorem Grows.trans (h : Grows d d') (h' : Grows d' d'') : Grows d d'' :=
  ⟨h'.cwd.trans h.cwd, fun hq => h'.get? (h.get? hq)⟩

theorem Grows.keeps (h : Grows d d') : Keeps d d' := ⟨h.cwd, fun hq => ⟨_, h.get? hq⟩, h.get?⟩

theorem grows_put (h : d.get? p = none) (e : Entry) : Grows d (d.put p e) where
  cwd := rfl
  get? {q e'} hq := by
    rw [get?_put_of_ne, hq]
    rintro rfl
    rw [h] at hq
    cases hq

/-- Anything can be put under a free name. -/
theorem Grounded.put_free {b : Bool} {text : Bytes} (h : d.Grounded)
    (hfree : d.locate b text = .ok (.free p c)) (e : Entry) :
    Grows d (d.put (p ++ [c]) e) ∧ (d.put (p ++ [c]) e).Grounded := by
  have hfollow := follow_of_locate hfree
  have horigin : ∃ m, d.get? (origin d.cwd text) = some (.dir m) := h.base (Path.mk text).isAbsolute
  have hparent := dir_of_follow_free h.tree horigin hfollow
  obtain ⟨hnone, -⟩ := spot_of_follow hfollow
  have hgrows := grows_put hnone e
  refine ⟨hgrows, ⟨h.tree.put (fun q c' heq => ?_) (by simp) (.inr fun q => ?_), ?_⟩⟩
  · obtain ⟨rfl, -⟩ := List.append_inj' heq rfl
    exact hparent
  · exact h.tree.get?_below fun m => by simp [hnone]
  · obtain ⟨m, hcwd⟩ := h.cwd
    exact ⟨m, hgrows.get? hcwd⟩

theorem Grounded.makeDirectory (h : d.Grounded) (hmake : d.makeDirectory path = .ok d') :
    Grows d d' ∧ d'.Grounded := by
  obtain ⟨text, parent, c, hfree, rfl, -⟩ := find_of_makeDirectory hmake
  exact h.put_free hfree (.dir openMode)

theorem Grounded.makeEach (h : d.Grounded) (l : List Path) :
    Grows d (d.makeEach l).2 ∧ (d.makeEach l).2.Grounded := by
  induction l generalizing d with
  | nil => exact ⟨.refl d, h⟩
  | cons path l ih =>
    rw [Disk.makeEach]
    split
    · rename_i d₁ hmake
      obtain ⟨hgrows, h₁⟩ := h.makeDirectory hmake
      obtain ⟨hrest, h'⟩ := ih h₁
      exact ⟨hgrows.trans hrest, h'⟩
    · split
      · exact ih h
      · exact ⟨.refl d, h⟩
    · exact ⟨.refl d, h⟩

/-- Either nothing is made, or directories at and above the path are made one after the other. -/
theorem makeDirectories_cases (d : Disk) (path : Path) : (∃ r, d.makeDirectories path = (r, d)) ∨
    ∃ l, (∀ p ∈ l, ∃ k, p = Path.parent^[k] path) ∧ d.makeDirectories path = d.makeEach l := by
  rw [Disk.makeDirectories]
  split
  · exact .inl ⟨_, rfl⟩
  cases hmissing : d.missing (path.text.length + 1) maxMissing
      (if path.endsInSlash then path.parent else path) with
  | error e => split <;> exact .inl ⟨_, rfl⟩
  | ok l =>
    have made : ∃ l', (∀ p ∈ l', ∃ k, p = Path.parent^[k] path) ∧
        d.makeEach l.reverse = d.makeEach l' := by
      refine ⟨_, fun p hp => ?_, rfl⟩
      obtain ⟨-, n, -, hlacks⟩ := lacks_of_missing hmissing
      obtain ⟨k, hk⟩ := hlacks.exists_parent (List.mem_reverse.1 hp)
      split at hk
      · exact ⟨k + 1, hk⟩
      · exact ⟨k, hk⟩
    split
    · exact .inl ⟨_, rfl⟩
    · exact .inl ⟨_, rfl⟩
    · exact .inr made
    · exact .inr made
    · exact .inr made
    · exact .inl ⟨_, rfl⟩

theorem Grounded.makeDirectories (h : d.Grounded) (path : Path) :
    Grows d (d.makeDirectories path).2 ∧ (d.makeDirectories path).2.Grounded := by
  rcases d.makeDirectories_cases path with ⟨r, hsame⟩ | ⟨l, -, hmade⟩
  · rw [hsame]
    exact ⟨.refl d, h⟩
  · rw [hmade]
    exact h.makeEach l

end FileCourier.Disk
