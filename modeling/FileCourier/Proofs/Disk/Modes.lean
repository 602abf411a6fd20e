import FileCourier.Proofs.Disk.Changes
import Mathlib.Data.List.Basic

/-!
# Permissions of directories

No operation on the disk gives a directory other permissions but `setMode`. What stores, removes or
renames files makes no directory (`Sheds`). A directory that is made and at once restricted to its
owner is found again by the same path, whatever that looks like, and no other directory changes
(`builds_makeDirectory`).
-/

namespace FileCourier.Disk

variable {d d' d'' : Disk} {p q old new : Place} {e : Entry} {spot : Spot} {path source target : Path}
  {text : Bytes} {m : Nat}

/-- Every directory was there before, with the same permissions. -/
def Sheds (d d' : Disk) : Prop := ∀ p m, d'.get? p = some (.dir m) → d.get? p = some (.dir m)

/-- All directories stay with their permissions, and new ones are for their owner alone. -/
structure Builds (d d' : Disk) : Prop where
  stays : ∀ p m, d.get? p = some (.dir m) → d'.get? p = some (.dir m)
  fresh : ∀ p m, d'.get? p = some (.dir m) → (∀ k, d.get? p ≠ some (.dir k)) → m = ownerMode

/-- A directory was there before with the same permissions, or there was none in its place and it is for
its owner alone. -/
def Discreet (d d' : Disk) : Prop :=
  ∀ p m, d'.get? p = some (.dir m) →
    d.get? p = some (.dir m) ∨ (∀ k, d.get? p ≠ some (.dir k)) ∧ m = ownerMode

theorem Sheds.refl (d : Disk) : Sheds d d := fun _ _ => id

theorem Sheds.trans (h : Sheds d d') (h' : Sheds d' d'') : Sheds d d'' :=
  fun p m hdir => h p m (h' p m hdir)

theorem Builds.refl (d : Disk) : Builds d d := ⟨fun _ _ => id, fun _ m hdir hno => absurd hdir (hno m)⟩

theorem Builds.eq_or_fresh (h : Builds d d') (hdir : d'.get? p = some (.dir m)) :
    d.get? p = some (.dir m) ∨ (∀ k, d.get? p ≠ some (.dir k)) ∧ m = ownerMode := by
  by_cases hno : ∀ k, d.get? p ≠ some (.dir k)
  · exact .inr ⟨hno, h.fresh p m hdir hno⟩
  · obtain ⟨k, hk⟩ : ∃ k, d.get? p = some (.dir k) := by simpa using hno
    cases (h.stays p k hk).symm.trans hdir
    exact .inl hk

theorem Builds.trans_discreet (h : Builds d d') (h' : Discreet d' d'') : Discreet d d'' := by
  intro p m hdir
  rcases h' p m hdir with hdir | ⟨hno, hm⟩
  · exact h.eq_or_fresh hdir
  · exact .inr ⟨fun k hk => hno k (h.stays p k hk), hm⟩

theorem Sheds.discreet (h : Sheds d d') : Discreet d d' := fun p m hdir => .inl (h p m hdir)

theorem Builds.trans (h : Builds d d') (h' : Builds d' d'') : Builds d d'' := by
  refine ⟨fun p m hdir => h'.stays p m (h.stays p m hdir), fun p m hdir hno => ?_⟩
  rcases h'.eq_or_fresh hdir with hdir | ⟨-, hm⟩
  · exact h.fresh p m hdir hno
  · exact hm

theorem Discreet.trans_sheds (h : Discreet d d') (h' : Sheds d' d'') : Discreet d d'' :=
  fun p m hdir => h p m (h' p m hdir)

theorem Builds.discreet (h : Builds d d') : Discreet d d' :=
  h.trans_discreet (Sheds.refl d').discreet

/-! ## Files -/

theorem sheds_of_within (h : Within (· = p) d d') (hp : ∀ m, d'.get? p ≠ some (.dir m)) :
    Sheds d d' := by
  intro q m hdir
  rwa [← h.get?]
  rintro rfl
  exact hp m hdir

theorem sheds_put (d : Disk) (p : Place) (he : Entry.isDir e = false) : Sheds d (d.put p e) := by
  intro q m hdir
  by_cases hqp : q = p
  · by_cases hp : p = []
    · rw [hqp, hp] at hdir ⊢
      exact hdir
    · rw [hqp, get?_put_self hp] at hdir
      cases hdir
      cases he
  · rwa [get?_put_of_ne hqp] at hdir

theorem sheds_drop (d : Disk) (p : Place) : Sheds d (d.drop p) := by
  intro q m hdir
  by_cases hp : p = []
  · by_cases hq : q = []
    · rw [hq] at hdir ⊢
      exact hdir
    · rwa [get?_drop_of_ne (hp ▸ hq)] at hdir
  · exact get?_of_get?_drop hdir hp

theorem sheds_openForWriting (h : d.openForWriting path = .ok (p, d')) : Sheds d d' := by
  obtain ⟨_, x, -, -, rfl, -⟩ := exists_of_openForWriting h
  exact sheds_put d p rfl

theorem sheds_append (d : Disk) (p : Place) (s : Bytes) : Sheds d (d.append p s) := by
  rw [append]
  split
  · exact sheds_put d p rfl
  · exact .refl d

theorem sheds_remove (h : d.remove path = .ok (some d')) : Sheds d d' := by
  simp only [remove] at h
  split at h
  · cases h
  · cases h
  · cases h
  · split at h
    · cases h
      exact sheds_drop d _
    · cases h
  · split at h
    · cases h
    · cases h
      exact sheds_drop d _

theorem sheds_emptied (h : d.emptied path = .ok (some d')) : Sheds d d' := by
  simp only [emptied] at h
  split at h
  · cases h
    exact fun _ _ => get?_of_get?_clear
  · cases h
  · cases h
  · cases h
    exact .refl d
  · cases h
    exact .refl d
  · cases h
    exact .refl d
  · cases h

/-! ## Renamed files -/

/-- No directory stands at the name that a path ends with, or below it. -/
def NamesFile (d : Disk) (path : Path) : Prop :=
  ∀ q e, d.locateName (systemText path) = .ok (.at q e) →
    ∀ p m, q <+: p → d.get? p ≠ some (.dir m)

/-- Whether the path names a file, by a look at all entries. -/
def namesFile (d : Disk) (path : Path) : Bool :=
  match d.locateName (systemText path) with
  | .ok (.at q _) => !q.isEmpty && d.entries.all fun x => !(q.isPrefixOf x.1 && Entry.isDir x.2)
  | _ => true

theorem namesFile_of_entries (h : d.namesFile path = true) : d.NamesFile path := by
  intro q e hlocate p m hp hdir
  rw [namesFile, hlocate] at h
  obtain ⟨hne, hall⟩ := Bool.and_eq_true_iff.1 h
  have hq : p ≠ [] := by
    rintro rfl
    rw [List.prefix_nil.1 hp] at hne
    cases hne
  have hentry := List.all_eq_true.1 hall _ (mem_entries_of_get? hq hdir)
  rw [List.isPrefixOf_iff_prefix.2 hp] at hentry
  cases hentry

/-- What is copied is a file, and it is put where the target leads: over a file, or at a free name. -/
theorem exists_of_copyFile (h : d.copyFile source target = .ok d') :
    ∃ spot old x s, d.find target = .ok spot ∧ (∀ q e, spot = .at q e → ∃ y t, e = .file y t) ∧
      d.find source = .ok (.at old (.file x s)) ∧ spot.place ≠ old ∧
      d' = d.put spot.place (.file x s) := by
  rw [copyFile] at h
  split at h <;> try cases h
  · rename_i new y t old x s htarget hsource
    split at h
    · cases h
    · rename_i hne
      cases h
      refine ⟨_, old, x, s, htarget, ?_, hsource, Ne.symm hne, rfl⟩
      rintro _ _ ⟨⟩
      exact ⟨y, t, rfl⟩
  · rename_i parent name old x s htarget hsource
    refine ⟨_, old, x, s, htarget, nofun, hsource, ?_, rfl⟩
    rintro rfl
    obtain ⟨hnone, -⟩ := spot_of_follow (follow_of_locate htarget)
    cases hnone.symm.trans (get?_of_find hsource)

theorem sheds_copyFile (h : d.copyFile source target = .ok d') : Sheds d d' := by
  obtain ⟨spot, old, x, s, -, -, -, -, rfl⟩ := exists_of_copyFile h
  exact sheds_put d spot.place rfl

theorem sheds_move (hold : ∀ p m, old <+: p → d.get? p ≠ some (.dir m)) (new : Place) :
    Sheds d (d.move old new) := by
  intro q m hdir
  by_cases hq : q = []
  · rw [hq] at hdir ⊢
    exact hdir
  have hne {p : Place} (hp : old <+: p) : p ≠ [] := fun hnil => hold p openMode hp (hnil ▸ rfl)
  rw [get?_of_ne_nil hq, move, List.find?_map, Option.map_map, Option.map_eq_some_iff] at hdir
  obtain ⟨⟨place, e⟩, hfound, he⟩ := hdir
  obtain ⟨hkey, before, after, hsplit, hbefore⟩ := List.find?_eq_some_iff_append.1 hfound
  -- What stands first at a place after the move stood first at its place before.
  have first {p : Place} (hp : p ≠ []) (hplace : place = p)
      (hothers : ∀ x ∈ before, x.1 ≠ p) : d.get? p = some e := by
    have hfirst : d.entries.find? (fun x => x.1 == p) = some (place, e) :=
      List.find?_eq_some_iff_append.2 ⟨beq_iff_eq.2 hplace, before, after, hsplit,
        fun x hx => by simpa using hothers x hx⟩
    rw [get?_of_ne_nil hp, hfirst]
    rfl
  by_cases hmoved : old <+: place
  · have hentry : d.get? place = some e := by
      refine first (hne hmoved) rfl fun x hx heq => ?_
      have hother := hbefore x hx
      simp only [Function.comp_apply, heq, List.isPrefixOf_iff_prefix.2 hmoved, if_true] at hother hkey
      rw [hkey] at hother
      cases hother
    simp only [Function.comp_apply, List.isPrefixOf_iff_prefix.2 hmoved, if_true] at he
    exact absurd (he ▸ hentry) (hold place m hmoved)
  · have hnot : old.isPrefixOf place = false := by
      rw [← Bool.not_eq_true, List.isPrefixOf_iff_prefix]
      exact hmoved
    simp only [Function.comp_apply, hnot, Bool.false_eq_true, if_false, beq_iff_eq] at he hkey
    refine he ▸ first hq hkey fun x hx heq => ?_
    have hother := hbefore x hx
    subst hkey
    simp only [Function.comp_apply, heq, hnot, Bool.false_eq_true, if_false, beq_self_eq_true,
      Bool.not_true] at hother

theorem sheds_rename (h : d.rename source target = .ok d') (hfile : d.NamesFile source) :
    Sheds d d' := by
  simp only [rename] at h
  split at h
  · cases h
  · cases h
  · cases h
  · rename_i old entry spot hsource htarget
    have hold := hfile old entry hsource
    have hstands : d.get? old = some entry :=
      spot_of_follow (follow_of_locate (locate_of_locateName hsource).2.2)
    cases entry with
    | dir k => exact absurd hstands (hold old k (List.prefix_refl _))
    | file | link =>
      dsimp only at h
      split at h
      · cases h
      split at h
      · cases h
        exact sheds_move hold _
      · cases h
      · rename_i new _ _
        split at h
        · cases h
          exact .refl d
        · cases h
          refine (sheds_drop d _).trans (sheds_move (fun p m hp hdir => ?_) _)
          exact hold p m hp (sheds_drop d _ p m hdir)

/-! ## Directories -/

theorem keeps_refl (d : Disk) : Keeps d d := ⟨rfl, fun h => ⟨_, h⟩, id⟩

/-- A directory is found behind the slashes at the end of a path as without them. -/
theorem locate_of_trimmed (hk : Keeps d d') (hshort : text.length ≤ maxPath)
    (h : d.locate false (Path.trimEnd text) = .ok spot) (hlink : spot.isLink = false)
    (hdir : d'.get? spot.place = some (.dir m)) :
    d'.locate true text = .ok (.at spot.place (.dir m)) := by
  have hnonempty : Path.trimEnd text ≠ [] := fun hnil => by
    rw [hnil] at h
    cases h
  obtain ⟨n, hn⟩ := Path.exists_eq_trimEnd_append text
  have htext : text ≠ [] := fun hnil => by
    rw [hnil] at hnonempty
    exact hnonempty rfl
  have habsolute : (Path.mk (Path.trimEnd text)).isAbsolute = (Path.mk text).isAbsolute := by
    have hhead : text.head? = (Path.trimEnd text).head? :=
      (congrArg List.head? hn).trans (List.head?_append_of_ne_nil _ hnonempty)
    rw [Path.isAbsolute, Path.isAbsolute, hhead]
  have hends : (Path.mk (Path.trimEnd text)).endsInSlash = false := by
    rw [Path.endsInSlash, beq_eq_false_iff_ne.2 (Path.getLast?_trimEnd text), Bool.false_and]
  have hfollow := follow_of_keeps hk (follow_true_of_false (follow_of_locate h) hlink) hlink hdir rfl
  rw [route, hends, Path.names_trimEnd, origin, habsolute, ← hk.cwd] at hfollow
  simp only [Bool.false_eq_true, if_false, List.append_nil] at hfollow
  rw [locate, List.isEmpty_eq_false_iff.2 htext, if_neg Bool.false_ne_true,
    if_neg (Nat.not_lt.2 hshort), route, origin]
  cases (Path.mk text).endsInSlash with
  | false =>
    rw [if_neg Bool.false_ne_true, List.append_nil]
    exact hfollow
  | true =>
    obtain ⟨k, hk⟩ := follow_append hfollow (List.cons_ne_nil Path.dot []) true
    rw [if_pos rfl, hk, follow, reach, if_pos rfl, (Ends.here hdir).reach_eq]

theorem builds_of_within (h : Within (· = p) d d') (hnone : d.get? p = none)
    (hdir : d'.get? p = some (.dir ownerMode)) : Builds d d' := by
  refine ⟨fun q m hq => ?_, fun q m hq hno => ?_⟩
  · rwa [h.get?]
    rintro rfl
    cases hnone.symm.trans hq
  · by_cases hqp : q = p
    · rw [hqp, hdir] at hq
      cases hq
      rfl
    · rw [h.get? hqp] at hq
      exact absurd hq (hno m)

/-- A path without a name leads to a directory or nowhere. -/
theorem locate_ne_free {parent : Place} {c : Bytes} {b : Bool} (h : (Path.mk text).names = []) :
    d.locate b text ≠ .ok (.free parent c) := by
  intro hlocate
  have hfollow := follow_of_locate hlocate
  have hroute : route text = [] := by rw [route, Path.endsInSlash, h, List.isEmpty_nil]; simp
  rw [hroute, follow, reach] at hfollow
  cases hstands : d.get? (origin d.cwd text) with
  | none | some =>
    rw [hstands] at hfollow
    cases hfollow

/-- A directory is made where nothing stood, and the path leads to it from then on, also when slashes
follow its name. -/
theorem find_of_makeDirectory (h : d.makeDirectory path = .ok d') : ∃ text parent c,
    d.locate false text = .ok (.free parent c) ∧ d' = d.put (parent ++ [c]) (.dir openMode) ∧
      d'.find path = .ok (.at (parent ++ [c]) (.dir openMode)) := by
  simp only [makeDirectory] at h
  split at h
  · cases h
  rename_i hshort
  split at h
  · cases h
  · rename_i parent c hlocate
    cases h
    obtain ⟨hnone, -⟩ := spot_of_follow (follow_of_locate hlocate)
    have hk : Keeps d (d.put (parent ++ [c]) (.dir openMode)) :=
      keeps_put fun e he => absurd he (by simp [hnone])
    refine ⟨_, parent, c, hlocate, rfl, ?_⟩
    split at hlocate
    · rename_i hempty
      exact absurd hlocate (locate_ne_free (List.isEmpty_iff.1 hempty))
    · exact locate_of_trimmed hk (Nat.not_lt.1 hshort) hlocate rfl (get?_put_self (by simp))
  · cases h

/-- A directory that is made and restricted to its owner is the only one that is new. -/
theorem builds_makeDirectory (h : d.makeDirectory path = .ok d') :
    Builds d (d'.setMode path ownerMode) := by
  obtain ⟨text, parent, c, hlocate, rfl, hfind⟩ := find_of_makeDirectory h
  obtain ⟨hnone, -⟩ := spot_of_follow (follow_of_locate hlocate)
  have hput (d : Disk) (e : Entry) : Within (· = parent ++ [c]) d (d.put (parent ++ [c]) e) :=
    within_put (· = parent ++ [c]) rfl d e
  rw [setMode, hfind]
  exact builds_of_within ((hput d _).trans (hput _ _)) hnone (get?_put_self (by simp))

/-- A path that leads to a file is not removed as a directory. -/
theorem builds_remove_file (hfile : d.isFile path = true) (h : d.remove path = .ok (some d')) :
    Builds d d' := by
  obtain ⟨q, x, t, hfind⟩ := find_of_isFile hfile
  simp only [remove] at h
  split at h
  · cases h
  · cases h
  · cases h
  · rename_i place m hname
    obtain ⟨-, hshort, hlocate⟩ := locate_of_locateName hname
    have hdir : d.get? place = some (.dir m) := spot_of_follow (follow_of_locate hlocate)
    have hfound := locate_of_trimmed (keeps_refl d) hshort hlocate rfl hdir
    cases hfind.symm.trans hfound
  · rename_i place e hno hname
    obtain ⟨-, -, hlocate⟩ := locate_of_locateName hname
    have hstands : d.get? place = some e := spot_of_follow (follow_of_locate hlocate)
    split at h
    · cases h
    · cases h
      refine ⟨fun p m hdir => ?_, fun p m hdir hno => absurd (sheds_drop d place p m hdir) (hno m)⟩
      rwa [get?_drop_of_ne]
      rintro rfl
      exact hno m (Option.some.inj (hstands.symm.trans hdir))

end FileCourier.Disk
