import FileCourier.Proofs.Disk.Moving

/-!
# A file that is moved as a copy

A file that cannot be renamed, because its new place is on another device, is copied and then removed.
Where its path names no link this comes to the same as renaming. A link under that path is not replaced
but followed: the file where it leads is overwritten (`Diverted`). Nothing else can happen to a fresh
file that is moved (`settled_of_move`).
-/

namespace FileCourier.Disk

variable {d d' d₁ d₂ : Disk} {apart : Place → Place → Bool} {p q old parent : Place} {c : Bytes}
  {e : Entry} {path source target : Path} {spot : Spot} {x : Bool} {s : Bytes}

/-- A path that leads to no directory names what it leads to, or a link. -/
theorem Grounded.exists_locateName (hd : d.Grounded) (hfind : d.find path = .ok spot)
    (hdir : ∀ p k, spot ≠ .at p (.dir k)) : ∃ spot', d.locateName (systemText path) = .ok spot' ∧
      (Path.mk (systemText path)).endsInSlash = false ∧ (spot' = spot ∨ ∃ q t, spot' = .at q (.link t)) := by
  rw [← find_readPart] at hfind
  have hnul := no_nul_readPart path
  have hshort := short_of_find hnul hfind
  obtain ⟨ns, parent, c, m, hreads, hc, hns⟩ := hd.exists_last hnul hfind hdir
  obtain ⟨k, hname⟩ := exists_locateName_eq hreads hshort hc hns
  obtain ⟨k', hk'⟩ := follow_append hns (List.cons_ne_nil c []) true
  rw [find_of_reads hreads (text_ne_nil_of_find hnul hfind) hshort, hk'] at hfind
  rw [show systemText path = (readPart path).text from rfl, hname]
  have hends : (Path.mk (readPart path).text).endsInSlash = false := hreads.endsInSlash_eq
  cases he : d.get? (parent ++ [c]) with
  | none =>
    have hparent : d.get? parent = some (.dir m) := spot_of_follow hns
    rw [follow_singleton_of_none hc hparent he] at hfind ⊢
    cases hfind
    exact ⟨_, rfl, hends, .inl rfl⟩
  | some e =>
    cases e with
    | dir m' =>
      rw [follow_singleton_of_some hc he rfl] at hfind
      cases hfind
      exact absurd rfl (hdir _ m')
    | file x s =>
      rw [follow_singleton_of_some hc he rfl] at hfind ⊢
      cases hfind
      exact ⟨_, rfl, hends, .inl rfl⟩
    | link t =>
      rw [follow_singleton_of_not_dir hc he rfl]
      exact ⟨_, rfl, hends, .inr ⟨_, t, rfl⟩⟩

theorem ne_dir_of_file (hspot : ∀ q e, spot = .at q e → ∃ y t, e = .file y t) (q : Place) (k : Nat) :
    spot ≠ .at q (.dir k) := fun heq => by
  obtain ⟨_, _, ⟨⟩⟩ := hspot _ _ heq

/-- What can be copied on one device can be renamed. -/
theorem Grounded.exists_rename (hd : d.Grounded)
    (hsource : d.locateName (systemText source) = .ok (.at old (.file x s)))
    (hends : (Path.mk (systemText source)).endsInSlash = false)
    (hcopy : d.copyFile source target = .ok d') : ∃ d'', d.rename source target = .ok d'' := by
  obtain ⟨spot, -, -, -, htarget, hspot, -⟩ := exists_of_copyFile hcopy
  have hdir := ne_dir_of_file hspot
  obtain ⟨spot', hname, hends', hcase⟩ := hd.exists_locateName htarget hdir
  simp only [rename, hsource, hname, hends, hends', Bool.or_self, Bool.false_eq_true, if_false]
  cases spot' with
  | free parent name => exact ⟨_, rfl⟩
  | «at» new e =>
    cases e with
    | dir k =>
      rcases hcase with rfl | ⟨_, _, ⟨⟩⟩
      exact absurd rfl (hdir new k)
    | file | link =>
      dsimp only
      split <;> exact ⟨_, rfl⟩

/-- A copy that was not renamed goes to another device. -/
theorem Grounded.crosses_of_copyFile (hd : d.Grounded)
    (hsource : d.locateName (systemText source) = .ok (.at old (.file x s)))
    (hends : (Path.mk (systemText source)).endsInSlash = false)
    (hcopy : d.copyFile source target = .ok d')
    (h : d.crosses apart source target = true ∨ ∃ e, d.rename source target = .error e) :
    d.crosses apart source target = true := by
  rcases h with hcrosses | ⟨e, hrename⟩
  · exact hcrosses
  · obtain ⟨d'', hrenamed⟩ := hd.exists_rename hsource hends hcopy
    cases hrename.symm.trans hrenamed

/-- A link that leads to a copy on another device is there itself. -/
theorem Grounded.apart_of_crosses (hd : d.Grounded)
    (hsource : d.locateName (systemText source) = .ok (.at old (.file x s)))
    (hfile : d.get? old = some (.file x s)) (hcopy : d.copyFile source target = .ok d')
    {link : Place} {t : Bytes} (hlink : (d.drop old).locateName (systemText target) = .ok (.at link (.link t)))
    (hcrosses : d.crosses apart source target = true) : apart old.dropLast link.dropLast = true := by
  obtain ⟨spot, -, -, -, htarget, hspot, -⟩ := exists_of_copyFile hcopy
  obtain ⟨named, hname, -⟩ := hd.exists_locateName htarget (ne_dir_of_file hspot)
  obtain ⟨named', hname', hplace⟩ := hd.locateName_drop_file hfile hname
  cases hlink.symm.trans hname'
  rw [crosses, hsource, hname] at hcrosses
  dsimp only at hcrosses
  rwa [← hplace] at hcrosses

/-- The path names a link, and the content stands where this leads; nothing else differs. -/
structure Diverted (path : Path) (content : Bytes) (d d' : Disk) (link : Place) (spot : Spot) : Prop where
  named : ∃ t, d.locateName (systemText path) = .ok (.at link (.link t))
  led : d.find path = .ok spot
  file : ∃ x, Alike (d.put spot.place (.file x content)) d'
  found : ∃ x, d'.find path = .ok (.at spot.place (.file x content))

/-- What stands where a path leads to nothing or to a file is a file. -/
theorem Spot.IsOn.exists_file (hon : spot.IsOn d)
    (hspot : ∀ q e, spot = .at q e → ∃ y t, e = .file y t) (he : d.get? spot.place = some e) :
    ∃ y t, e = .file y t := by
  cases spot with
  | free => cases he.symm.trans hon.1
  | «at» q e' =>
    cases he.symm.trans hon
    exact hspot q e rfl

/-- A path leads to the same place when another file has been taken away. -/
theorem Grounded.find_drop_file (hd : d.Grounded) (hfile : d.get? q = some (.file x s))
    (hfind : d.find path = .ok spot) :
    ∃ spot', (d.drop q).find path = .ok spot' ∧ spot'.place = spot.place := by
  rw [find, locate] at hfind ⊢
  split at hfind
  · cases hfind
  split at hfind
  · cases hfind
  rw [if_neg ‹_›, if_neg ‹_›]
  exact follow_drop_file hd.tree (hd.base (Path.mk _).isAbsolute) hfile hfind

theorem Grounded.drop_file (hd : d.Grounded) (hfile : d.get? q = some (.file x s)) :
    (d.drop q).Grounded where
  tree := hd.tree.drop (ne_nil_of_file hfile) fun _ => hd.tree.get?_below fun m => by simp [hfile]
  cwd := (keeps_drop_file hfile).dir hd.cwd.choose_spec

/-- A file that is put where a path leads is delivered, or diverted by a link. -/
theorem Grounded.settled (hd : d.Grounded) (hfind : d.find path = .ok spot)
    (hspot : ∀ q e, spot = .at q e → ∃ y t, e = .file y t)
    (h : Alike (d.put spot.place (.file x s)) d') :
    Delivered path s d d' spot ∨ ∃ link, Diverted path s d d' link spot := by
  have hlink : spot.isLink = false := by
    cases spot with
    | free => rfl
    | «at» q e =>
      obtain ⟨y, t, rfl⟩ := hspot q e rfl
      rfl
  have hon : spot.IsOn d := spot_of_follow (follow_of_locate hfind)
  have hdir (m : Nat) : d.get? spot.place ≠ some (.dir m) := fun hm => by
    obtain ⟨_, _, ⟨⟩⟩ := hon.exists_file hspot hm
  obtain ⟨spot', hname, hends, rfl | ⟨link, t, rfl⟩⟩ := hd.exists_locateName hfind (ne_dir_of_file hspot)
  · exact .inl (delivered_of_named hname hends hdir h)
  · have hne : spot.place ≠ [] := fun hnil => hdir openMode (hnil ▸ rfl)
    have hfile : d'.get? spot.place = some (.file x s) := (h.get? _).trans (get?_put_self hne)
    exact .inr ⟨link, ⟨t, hname⟩, hfind, ⟨x, h⟩, x, locate_of_put hfind hlink hdir h hfile⟩

/-! ## Moving a fresh file -/

theorem exists_of_moveAsCopy {u : Unit} (h : Chores.moveAsCopy source target d = (.ok u, d')) :
    ∃ d₁, d.copyFile source target = .ok d₁ ∧ Chores.remove source d₁ = (.ok u, d') := by
  rw [Chores.moveAsCopy, Action.get_bind] at h
  cases hcopy : d.copyFile source target with
  | error e =>
    rw [hcopy] at h
    cases h
  | ok d₁ =>
    rw [hcopy] at h
    exact ⟨d₁, rfl, h⟩

/-- A file is moved by renaming it, or else by copying and removing it. -/
theorem cases_of_move {u : Unit} (h : Chores.move apart source target d = (.ok u, d')) :
    d.rename source target = .ok d' ∨
      (d.crosses apart source target = true ∨ ∃ e, d.rename source target = .error e) ∧
        ∃ d₁, d.copyFile source target = .ok d₁ ∧ Chores.remove source d₁ = (.ok u, d') := by
  rw [Chores.move, Action.get_bind] at h
  cases hcrosses : d.crosses apart source target with
  | true =>
    rw [hcrosses] at h
    exact .inr ⟨.inl rfl, exists_of_moveAsCopy h⟩
  | false =>
    rw [hcrosses, if_neg Bool.false_ne_true] at h
    cases hrename : d.rename source target with
    | error e =>
      rw [hrename] at h
      exact .inr ⟨.inr ⟨e, rfl⟩, exists_of_moveAsCopy h⟩
    | ok d₁ =>
      rw [hrename] at h
      cases h
      exact .inl rfl

/-- What is copied from a fresh file, which is then removed, leaves the disk without it and the content
where the target leads. -/
theorem exists_of_copied {u : Unit} (hfree : d.locate false (systemText source) = .ok (.free parent c))
    (hk : Keeps d d₂) (hd₂ : d₂.Grounded) (hfile : d₂.get? (parent ++ [c]) = some (.file x s))
    (hcopy : d₂.copyFile source target = .ok d₁) (hremove : Chores.remove source d₁ = (.ok u, d')) :
    ∃ spot, (d₂.drop (parent ++ [c])).find target = .ok spot ∧
      (∀ q e, spot = .at q e → ∃ y t, e = .file y t) ∧
      Alike ((d₂.drop (parent ++ [c])).put spot.place (.file x s)) d' := by
  obtain ⟨spot₂, old, y, t, htarget, hspot₂, hread, hne, rfl⟩ := exists_of_copyFile hcopy
  cases hread.symm.trans (locate_true_of_false (locate_of_keeps hk hfree rfl hfile rfl) rfl)
  replace hne : spot₂.place ≠ parent ++ [c] := hne
  have hon₂ : spot₂.IsOn d₂ := spot_of_follow (follow_of_locate htarget)
  have hbeside : Keeps d₂ (d₂.put spot₂.place (.file x s)) :=
    keeps_put fun e => hon₂.exists_file hspot₂
  have hstill : (d₂.put spot₂.place (.file x s)).get? (parent ++ [c]) = some (.file x s) :=
    (get?_put_of_ne (Ne.symm hne)).trans hfile
  rw [Chores.remove, Action.get_bind, remove_of_free hfree (hk.trans hbeside) hstill] at hremove
  cases hremove
  obtain ⟨spot, hfind, hplace⟩ := hd₂.find_drop_file hfile htarget
  have hon : spot.IsOn (d₂.drop (parent ++ [c])) := spot_of_follow (follow_of_locate hfind)
  refine ⟨spot, hfind, fun q e hspot => ?_, rfl, fun q => ?_⟩
  · subst hspot
    exact hon₂.exists_file hspot₂ (hplace ▸ get?_of_get?_drop hon (by simp))
  · rw [hplace]
    by_cases hq : q = spot₂.place
    · have hnil : spot₂.place ≠ [] := fun hnil => by
        obtain ⟨_, _, ⟨⟩⟩ := hon₂.exists_file hspot₂ (e := .dir openMode) (by rw [hnil]; rfl)
      rw [hq, get?_drop_of_ne hne, get?_put_self hnil, get?_put_self hnil]
    · rw [get?_put_of_ne hq]
      by_cases hold : q = parent ++ [c]
      · rw [hold, get?_drop_self (by simp), get?_drop_self (by simp)]
      · rw [get?_drop_of_ne hold, get?_drop_of_ne hold, get?_put_of_ne hq]

/-- A fresh file is put under a path, directories are made, and then it is moved: it is delivered on the
disk on which nothing but the directories was made. Only a link on another device diverts it. -/
theorem settled_of_move {u : Unit} (hfree : d.locate false (systemText source) = .ok (.free parent c))
    (hraised : Raised path (d.put (parent ++ [c]) (.file x s)) d₂) (hd₂ : d₂.Grounded)
    (h : Chores.move apart source target d₂ = (.ok u, d')) :
    ∃ d₁ spot, d₁ = d₂.drop (parent ++ [c]) ∧ Raised path d d₁ ∧
      (Delivered target s d₁ d' spot ∨
        ∃ link, apart parent link.dropLast = true ∧ Diverted target s d₁ d' link spot) := by
  rcases cases_of_move h with hrename | ⟨hrefused, d₃, hcopy, hremove⟩
  · obtain ⟨d₁, spot, heq, hraised', hdelivered⟩ := delivered_of_rename hfree hraised hd₂ hrename
    exact ⟨d₁, spot, heq, hraised', .inl hdelivered⟩
  obtain ⟨hnone, -⟩ := spot_of_follow (follow_of_locate hfree)
  obtain ⟨hfile, hraised'⟩ := hraised.drop_file hnone
  have hk : Keeps d d₂ := ((grows_put hnone _).trans hraised.toGrows).keeps
  obtain ⟨spot, hfind, hspot, halike⟩ := exists_of_copied hfree hk hd₂ hfile hcopy hremove
  refine ⟨_, spot, rfl, hraised', ((hd₂.drop_file hfile).settled hfind hspot halike).imp_right ?_⟩
  rintro ⟨link, hdiverted⟩
  have hsource := locateName_of_free hfree hk hfile
  have hcrosses := hd₂.crosses_of_copyFile hsource (named_of_free hfree).1 hcopy hrefused
  obtain ⟨t, hlink⟩ := hdiverted.named
  have hapart := hd₂.apart_of_crosses hsource hfile hcopy hlink hcrosses
  rw [List.dropLast_concat] at hapart
  exact ⟨link, hapart, hdiverted⟩

end FileCourier.Disk
