import FileCourier.Proofs.Disk.Region
import FileCourier.Proofs.Path.Reading

/-!
# What file operations change

`Within` says at which places a change stays. Each operation that succeeds puts, drops or clears at
the spot to which its path leads (`exists_of_makeDirectory` and its like), and a disk from which
something was taken away leads paths to no other places (`follow_of_shrinks`).
-/

namespace FileCourier.Disk

open FileCourier.Path (Reads)

variable {d d' d'' : Disk} {s s' : Place → Prop} {b absolute : Bool} {p q : Place} {c : Bytes}
  {names ns : List Bytes} {e : Entry} {path : Path} {spot : Spot} {n m : Nat}

/-! ## Changes that stay at some places -/

/-- Nothing changes but at the places of `s`. -/
structure Within (s : Place → Prop) (d d' : Disk) : Prop where
  cwd : d'.cwd = d.cwd
  get? : ∀ {q}, ¬s q → d'.get? q = d.get? q

theorem Within.refl (s : Place → Prop) (d : Disk) : Within s d d := ⟨rfl, fun _ => rfl⟩

theorem Within.trans (h : Within s d d') (h' : Within s d' d'') : Within s d d'' :=
  ⟨h'.cwd.trans h.cwd, fun hq => (h'.get? hq).trans (h.get? hq)⟩

theorem Within.mono (h : Within s d d') (hs : ∀ q, s q → s' q) : Within s' d d' :=
  ⟨h.cwd, fun hq => h.get? fun hsq => hq (hs _ hsq)⟩

theorem within_put (s : Place → Prop) (hp : s p) (d : Disk) (e : Entry) : Within s d (d.put p e) where
  cwd := rfl
  get? hq := get?_put_of_ne fun heq => hq (heq ▸ hp)

theorem within_drop (hp : s p) (d : Disk) : Within s d (d.drop p) where
  cwd := rfl
  get? hq := get?_drop_of_ne fun heq => hq (heq ▸ hp)

theorem within_clear (hs : ∀ q, p <+: q → q ≠ p → s q) (d : Disk) : Within s d (d.clear p) where
  cwd := rfl
  get? hq := get?_clear_of_not_below fun hbelow => hq (hs _ hbelow.1 hbelow.2)

/-- What changes at the place of a file alone keeps directories and links. -/
theorem Within.keeps_of_file {x : Bool} {t : Bytes} (h : Within (· = p) d d')
    (hfile : d.get? p = some (.file x t)) : Keeps d d' := by
  refine ⟨h.cwd, fun {q m} hq => ⟨m, ?_⟩, fun {q l} hq => ?_⟩
  · rw [h.get?, hq]
    rintro rfl
    cases hq.symm.trans hfile
  · rw [h.get?, hq]
    rintro rfl
    cases hq.symm.trans hfile

theorem keeps_drop_file {x : Bool} {t : Bytes} (hfile : d.get? p = some (.file x t)) :
    Keeps d (d.drop p) :=
  (within_drop (s := (· = p)) rfl d).keeps_of_file hfile

/-- Without what lies below a directory, a disk keeps what it has while nothing changes but there. -/
theorem Within.keeps_clear (h : Within (p <+: ·) d d') (hdir : ∃ m, d'.get? p = some (.dir m))
    (hlink : ∀ t, (d.clear p).get? p ≠ some (.link t)) : Keeps (d.clear p) (d'.clear p) := by
  obtain ⟨m, hdir⟩ := hdir
  have hcleared : (d'.clear p).get? p = some (.dir m) := by
    rwa [get?_clear_of_not_below fun hbelow => hbelow.2 rfl]
  have outside {q : Place} {e : Entry} (hq : (d.clear p).get? q = some e) (hne : q ≠ p) :
      (d'.clear p).get? q = some e := by
    have hnot : ¬p <+: q := fun hinside => by
      rw [get?_clear_of_below hinside hne] at hq
      cases hq
    rw [get?_clear_of_not_below fun hbelow => hnot hbelow.1, h.get? hnot]
    exact get?_of_get?_clear hq
  refine ⟨h.cwd, fun {q k} hq => ?_, fun {q t} hq => ?_⟩
  · by_cases hne : q = p
    · exact ⟨m, hne ▸ hcleared⟩
    · exact ⟨k, outside hq hne⟩
  · refine outside hq ?_
    rintro rfl
    exact hlink t hq

theorem within_append (s : Place → Prop) (hp : s p) (d : Disk) (t : Bytes) : Within s d (d.append p t) := by
  rw [append]
  split
  · exact within_put s hp d _
  · exact .refl s d

/-- Nothing changes but at the places of `s`, and there only where no directory stands. -/
def Fills (s : Place → Prop) (d d' : Disk) : Prop :=
  Within (fun q => s q ∧ ∀ m, d.get? q ≠ some (.dir m)) d d'

theorem Fills.within (h : Fills s d d') : Within s d d' := h.mono fun _ hq => hq.1

theorem Fills.trans (h : Fills s d d') (h' : Fills s d' d'') : Fills s d d'' := by
  refine ⟨h'.cwd.trans h.cwd, fun {q} hq => ?_⟩
  have hfirst := h.get? hq
  refine (h'.get? fun hq' => hq ⟨hq'.1, ?_⟩).trans hfirst
  rw [← hfirst]
  exact hq'.2

theorem Fills.mono (h : Fills s d d') (hs : ∀ q, s q → s' q) : Fills s' d d' :=
  Within.mono h fun q hq => ⟨hs q hq.1, hq.2⟩

/-- A directory may be put in the place of a directory, and anything in the place of a file. -/
theorem keeps_put_of (hp : p ≠ []) (hlink : ∀ t, d.get? p ≠ some (.link t))
    (hdir : ∀ m, d.get? p = some (.dir m) → ∃ m', e = .dir m') : Keeps d (d.put p e) where
  cwd := rfl
  dir {q m} hq := by
    by_cases hqp : q = p
    · subst hqp
      obtain ⟨m', rfl⟩ := hdir m hq
      exact ⟨m', get?_put_self hp⟩
    · exact ⟨m, by rwa [get?_put_of_ne hqp]⟩
  link {q t} hq := by
    rwa [get?_put_of_ne]
    rintro rfl
    exact hlink t hq

/-! ## Trees -/

theorem IsTree.get?_below (htree : d.IsTree) (hdir : ∀ m, d.get? p ≠ some (.dir m))
    (hq : p <+: q) (hne : q ≠ p) : d.get? q = none :=
  get?_below_eq_none (fun _ => htree _ _) List.nil_prefix hdir hq hne

theorem get?_child_of_children (h : d.children p = []) (c : Bytes) : d.get? (p ++ [c]) = none := by
  refine Option.eq_none_iff_forall_not_mem.2 fun e he => ?_
  have hmem := mem_entries_of_get? (by simp) he
  rw [children, List.filterMap_eq_nil_iff] at h
  have hnone := h _ hmem
  simp at hnone

/-- Nothing is below a directory without children, or below anything else. -/
theorem IsTree.below_of_children (htree : d.IsTree) (he : d.get? p = some e)
    (hchildren : ∀ m, e = .dir m → d.children p = []) (hq : p <+: q) (hne : q ≠ p) :
    d.get? q = none := by
  by_cases hdir : ∃ m, e = .dir m
  · obtain ⟨m, hm⟩ := hdir
    obtain ⟨ns, rfl⟩ := hq
    cases ns with
    | nil => exact absurd (List.append_nil p) hne
    | cons c ns =>
      have hnone := get?_child_of_children (hchildren m hm) c
      rw [List.append_cons]
      by_cases hns : ns = []
      · rwa [hns, List.append_nil]
      · refine htree.get?_below (fun m => by simp [hnone]) (List.prefix_append _ ns) ?_
        simpa using hns
  · refine htree.get?_below (fun m hm => hdir ⟨m, ?_⟩) hq hne
    exact Option.some.inj (he.symm.trans hm)

/-- A directory may be put in a directory, and anything else where nothing is below it. -/
theorem IsTree.put (htree : d.IsTree)
    (hparent : ∀ q c, p = q ++ [c] → ∃ m, d.get? q = some (.dir m)) (hp : p ≠ [])
    (h : (∃ m, e = .dir m) ∨ ∀ q, p <+: q → q ≠ p → d.get? q = none) : (d.put p e).IsTree := by
  intro q c hsome
  by_cases hq : q = p
  · subst hq
    rcases h with ⟨m, rfl⟩ | hbelow
    · exact ⟨m, get?_put_self hp⟩
    · rw [get?_put_of_ne (by simp), hbelow _ (List.prefix_append _ _) (by simp)] at hsome
      exact absurd rfl hsome
  · rw [get?_put_of_ne hq]
    by_cases hchild : q ++ [c] = p
    · exact hparent q c hchild.symm
    · rw [get?_put_of_ne hchild] at hsome
      exact htree q c hsome

theorem IsTree.parent (htree : d.IsTree) (hp : d.get? p ≠ none) :
    ∀ q c, p = q ++ [c] → ∃ m, d.get? q = some (.dir m) := by
  rintro q c rfl
  exact htree q c hp

/-- What has nothing below it may be taken away. -/
theorem IsTree.drop (htree : d.IsTree) (hp : p ≠ [])
    (hbelow : ∀ q, p <+: q → q ≠ p → d.get? q = none) : (d.drop p).IsTree := by
  intro q c hsome
  obtain ⟨e, he⟩ := Option.ne_none_iff_exists'.1 hsome
  have hold := get?_of_get?_drop he hp
  have hq : q ≠ p := by
    rintro rfl
    rw [hbelow _ (List.prefix_append _ _) (by simp)] at hold
    cases hold
  rw [get?_drop_of_ne hq]
  exact htree q c (ne_none_of_get? hold)

/-- A link is followed from a directory. -/
theorem exists_dir_of_reach_link {t : Bytes} {rest : List Bytes} (htree : d.IsTree)
    (hp : ∃ m, d.get? p = some (.dir m)) (h : d.reach b p names = .link q t rest) :
    ∃ m, d.get? (origin q t) = some (.dir m) := by
  obtain ⟨passed, q', r, rfl, hpass, hend⟩ := exists_passes_ends d b p names
  rw [h] at hend
  cases hend with
  | link =>
    rw [origin]
    split
    · exact ⟨openMode, rfl⟩
    · exact hpass.exists_dir htree hp

/-- A walk that leads somewhere ends in a directory. -/
theorem exists_ends_of_follow (htree : d.IsTree) (hp : ∃ m, d.get? p = some (.dir m))
    (h : d.follow b n p names = .ok spot) :
    ∃ q m rest, d.get? q = some (.dir m) ∧ Ends d b q rest (.spot spot) := by
  rw [follows_iff] at h
  induction h with
  | @spot _ p names _ hr =>
    obtain ⟨passed, q, rest, rfl, hpass, hend⟩ := exists_passes_ends d b p names
    rw [hr] at hend
    obtain ⟨m, hm⟩ := hpass.exists_dir htree hp
    exact ⟨q, m, rest, hm, hend⟩
  | link hr _ ih => exact ih (exists_dir_of_reach_link htree hp hr)

/-- A name that is free is free in a directory. -/
theorem dir_of_follow_free (htree : d.IsTree) (hp : ∃ m, d.get? p = some (.dir m))
    (h : d.follow b n p names = .ok (.free q c)) : ∃ m, d.get? q = some (.dir m) := by
  obtain ⟨q', m, rest, hm, hend⟩ := exists_ends_of_follow htree hp h
  cases hend with
  | free => exact ⟨m, hm⟩

/-- What is found with its links followed is no link. -/
theorem not_link_of_follow (htree : d.IsTree) (hp : ∃ m, d.get? p = some (.dir m))
    (h : d.follow true n p names = .ok (.at q e)) : Entry.isLink e = false := by
  obtain ⟨q', m, rest, hm, hend⟩ := exists_ends_of_follow htree hp h
  cases hend with
  | here he =>
    rw [hm] at he
    cases he
    rfl
  | file => rfl
  | linkLast _ _ hb => cases hb

/-! ## Names that are followed to their last -/

theorem reach_true_of_link {t : Bytes} {rest : List Bytes}
    (h : d.reach false p names = .link q t rest) : d.reach true p names = .link q t rest := by
  obtain ⟨passed, q', r, rfl, hpass, hend⟩ := exists_passes_ends d false p names
  rw [h] at hend
  rw [reach_append hpass]
  cases hend with
  | link hc he => exact (Ends.link hc he (by simp)).reach_eq

theorem reach_true_of_spot (h : d.reach false p names = .spot spot) (hs : spot.isLink = false) :
    d.reach true p names = .spot spot := by
  obtain ⟨passed, q', r, rfl, hpass, hend⟩ := exists_passes_ends d false p names
  rw [h] at hend
  rw [reach_append hpass]
  cases hend with
  | here he => exact (Ends.here he).reach_eq
  | free hc he hp => exact (Ends.free hc he hp).reach_eq
  | file hc he => exact (Ends.file hc he).reach_eq
  | linkLast => cases hs

/-- A spot that is no link is found whether or not a link there would be followed. -/
theorem follow_true_of_false (h : d.follow false n p names = .ok spot)
    (hs : spot.isLink = false) : d.follow true n p names = .ok spot := by
  rw [follows_iff] at h ⊢
  induction h with
  | spot hr => exact .spot (reach_true_of_spot hr hs)
  | link hr _ ih => exact .link (reach_true_of_link hr) (ih hs)

/-! ## Taking away -/

/-- The second disk is the first one without some entries, none of which is a link. -/
structure Shrinks (d d' : Disk) : Prop where
  cwd : d'.cwd = d.cwd
  sub : ∀ {q e}, d'.get? q = some e → d.get? q = some e
  link : ∀ {q t}, d.get? q = some (.link t) → d'.get? q = some (.link t)

theorem Shrinks.refl (d : Disk) : Shrinks d d := ⟨rfl, id, id⟩

theorem Shrinks.trans (h : Shrinks d d') (h' : Shrinks d' d'') : Shrinks d d'' :=
  ⟨h'.cwd.trans h.cwd, fun he => h.sub (h'.sub he), fun ht => h'.link (h.link ht)⟩

theorem Shrinks.keeps (h : Shrinks d d') : Keeps d' d :=
  ⟨h.cwd.symm, fun hp => ⟨_, h.sub hp⟩, fun hp => h.sub hp⟩

theorem shrinks_drop (hp : p ≠ []) (hlink : ∀ t, d.get? p ≠ some (.link t)) :
    Shrinks d (d.drop p) where
  cwd := rfl
  sub hq := get?_of_get?_drop hq hp
  link {q t} hq := by
    rwa [get?_drop_of_ne]
    rintro rfl
    exact hlink t hq

theorem shrinks_clear (hlink : ∀ q t, p <+: q → d.get? q ≠ some (.link t)) :
    Shrinks d (d.clear p) where
  cwd := rfl
  sub := get?_of_get?_clear
  link {q t} hq := by
    rwa [get?_clear_of_not_below]
    intro hbelow
    exact hlink q t hbelow.1 hq

theorem reach_of_shrinks (h : Shrinks d d') (hr : d'.reach b p names = .spot spot) :
    ∃ spot', d.reach b p names = .spot spot' ∧ spot'.place = spot.place := by
  have hon := spot_of_reach hr
  cases spot with
  | «at» q e =>
    by_cases hlink : Entry.isLink e = true
    · -- Only a walk that does not follow its last name ends at a link.
      refine ⟨_, ?_, rfl⟩
      obtain ⟨passed, q', r, rfl, hpass, hend⟩ := exists_passes_ends d' b p names
      rw [hr] at hend
      rw [reach_append (hpass.of_keeps h.keeps)]
      cases hend with
      | here he => exact (Ends.here (h.sub he)).reach_eq
      | file hc he => exact (Ends.file hc (h.sub he)).reach_eq
      | linkLast hc he hb => exact (Ends.linkLast hc (h.sub he) hb).reach_eq
    · have hno : Entry.isLink e = false := by simpa using hlink
      exact ⟨_, reach_spot_of_keeps h.keeps hr hno (h.sub hon) hno, rfl⟩
  | free parent c =>
    cases he : d.get? (parent ++ [c]) with
    | some e =>
      have hno : Entry.isLink e = false := by
        cases e with
        | dir | file => rfl
        | link t =>
          have hlink := h.link he
          rw [hon.1] at hlink
          cases hlink
      exact ⟨_, reach_spot_of_keeps h.keeps hr rfl he hno, rfl⟩
    | none =>
      obtain ⟨passed, q', r, rfl, hpass, hend⟩ := exists_passes_ends d' b p names
      rw [hr] at hend
      rw [reach_append (hpass.of_keeps h.keeps)]
      cases hend with
      | free hc _ hp =>
        obtain ⟨e, hparent⟩ := Option.ne_none_iff_exists'.1 hp
        exact ⟨_, (Ends.free hc he (ne_none_of_get? (h.sub hparent))).reach_eq, rfl⟩

/-- What leads somewhere after entries were taken away led to the same place before. -/
theorem follow_of_shrinks (h : Shrinks d d') (hf : d'.follow b n p names = .ok spot) :
    ∃ spot', d.follow b n p names = .ok spot' ∧ spot'.place = spot.place := by
  rw [follows_iff] at hf
  induction hf with
  | spot hr =>
    obtain ⟨spot', hr', hplace⟩ := reach_of_shrinks h hr
    exact ⟨spot', follows_iff.2 (.spot hr'), hplace⟩
  | link hr _ ih =>
    obtain ⟨spot', hfollow, hplace⟩ := ih
    exact ⟨spot', follows_iff.2 (.link (reach_link_of_keeps h.keeps hr) (follows_iff.1 hfollow)),
      hplace⟩

/-! ## Operations that succeed -/

theorem follow_of_reads (hp : Reads absolute ns path) (h : d.locate b path.text = .ok spot) :
    d.follow b maxLinks (d.base absolute) ns = .ok spot := by
  have hfollow := follow_of_locate h
  have hroute : route path.text = ns := by
    have hends : (Path.mk path.text).endsInSlash = false := hp.endsInSlash_eq
    rw [route, hends]
    exact (List.append_nil _).trans hp.names_eq
  rwa [hroute, origin, show (Path.mk path.text).isAbsolute = absolute from hp.isAbsolute_eq]
    at hfollow

theorem systemText_of_reads (hp : Reads absolute ns path) : systemText path = path.text :=
  untilNul_of_no_nul hp.no_nul

theorem follow_of_find (hp : Reads absolute ns path) (h : d.find path = .ok spot) :
    d.follow true maxLinks (d.base absolute) ns = .ok spot := by
  rw [find, systemText_of_reads hp] at h
  exact follow_of_reads hp h

theorem find_of_entryAt? (h : d.entryAt? path = some e) : ∃ q, d.find path = .ok (.at q e) := by
  rw [entryAt?] at h
  split at h
  · rename_i q _ hfind
    cases h
    exact ⟨q, hfind⟩
  · cases h

theorem find_of_isDirectory (h : d.isDirectory path = true) :
    ∃ q m, d.find path = .ok (.at q (.dir m)) := by
  rw [isDirectory] at h
  split at h
  · rename_i m hentry
    obtain ⟨q, hfind⟩ := find_of_entryAt? hentry
    exact ⟨q, m, hfind⟩
  · cases h

theorem find_of_isFile (h : d.isFile path = true) :
    ∃ q x t, d.find path = .ok (.at q (.file x t)) := by
  rw [isFile] at h
  split at h
  · rename_i x t hentry
    obtain ⟨q, hfind⟩ := find_of_entryAt? hentry
    exact ⟨q, x, t, hfind⟩
  · cases h

theorem exists_of_makeDirectory (hp : Reads absolute ns path)
    (h : d.makeDirectory path = .ok d') : ∃ parent c,
      d.follow false maxLinks (d.base absolute) ns = .ok (.free parent c) ∧
        d' = d.put (parent ++ [c]) (.dir openMode) := by
  have htext : (if (Path.mk path.text).names.isEmpty then path.text else Path.trimEnd path.text) =
      path.text := by
    split
    · rfl
    · rename_i hsome
      refine Path.trimEnd_of_last (hp.last fun hnil => hsome ?_)
      rw [List.isEmpty_iff, ← hnil]
      exact hp.names_eq
  simp only [makeDirectory, systemText_of_reads hp, htext] at h
  split at h
  · cases h
  split at h
  · cases h
  · rename_i parent c hlocate
    cases h
    exact ⟨parent, c, follow_of_reads hp hlocate, rfl⟩
  · cases h

theorem setMode_cases (d : Disk) (path : Path) (mode : Nat) : d.setMode path mode = d ∨
    ∃ q m, d.find path = .ok (.at q (.dir m)) ∧ d.setMode path mode = d.put q (.dir mode) := by
  rw [setMode]
  split
  · rename_i q m hfind
    exact .inr ⟨q, m, hfind, rfl⟩
  · exact .inl rfl

theorem exists_of_openForWriting (h : d.openForWriting path = .ok (p, d')) :
    ∃ spot x, d.find path = .ok spot ∧ spot.place = p ∧ d' = d.put p (.file x []) ∧
      ∀ e, d.get? p = some e → ∃ x t, e = .file x t := by
  rw [openForWriting] at h
  split at h
  · rename_i q x t hfind
    cases h
    refine ⟨_, x, hfind, rfl, rfl, fun e he => ⟨x, t, ?_⟩⟩
    exact Option.some.inj (he.symm.trans (get?_of_find hfind))
  · cases h
  · rename_i parent c hfind
    cases h
    refine ⟨_, false, hfind, rfl, rfl, fun e he => ?_⟩
    rw [(get?_of_find_free hfind).1] at he
    cases he
  · cases h

theorem within_of_openForWriting (h : d.openForWriting path = .ok (p, d')) : Within (· = p) d d' := by
  obtain ⟨_, x, -, -, rfl, -⟩ := exists_of_openForWriting h
  exact within_put (· = p) rfl d _

/-- A path that names something leads to it without the slashes at its end. -/
theorem locate_of_locateName {text : Bytes} (h : d.locateName text = .ok spot) :
    (Path.mk text).names ≠ [] ∧ text.length ≤ maxPath ∧
      d.locate false (Path.trimEnd text) = .ok spot := by
  rw [locateName] at h
  split at h
  · split at h <;> cases h
  · rename_i last hlast
    have hne : (Path.mk text).names ≠ [] := fun hnil => by
      rw [hnil] at hlast
      cases hlast
    split at h
    · split at h <;> cases h
    split at h
    · cases h
    · rename_i hshort
      exact ⟨hne, Nat.not_lt.1 hshort, h⟩

theorem exists_of_remove (hp : Reads absolute ns path) (h : d.remove path = .ok (some d')) :
    ∃ q e, d.follow false maxLinks (d.base absolute) ns = .ok (.at q e) ∧ d' = d.drop q ∧ ns ≠ [] ∧
      ∀ m, e = .dir m → d.children q = [] := by
  have hlocate {spot : Spot} (h : d.locateName path.text = .ok spot) :
      d.follow false maxLinks (d.base absolute) ns = .ok spot ∧ ns ≠ [] := by
    obtain ⟨hsome, -, hlocate⟩ := locate_of_locateName h
    have hne : ns ≠ [] := hp.names_eq ▸ hsome
    rw [Path.trimEnd_of_last (hp.last hne)] at hlocate
    exact ⟨follow_of_reads hp hlocate, hne⟩
  simp only [remove, systemText_of_reads hp] at h
  split at h
  · cases h
  · cases h
  · cases h
  · rename_i q m hname
    obtain ⟨hfollow, hne⟩ := hlocate hname
    split at h
    · rename_i hempty
      cases h
      exact ⟨q, _, hfollow, rfl, hne, fun _ _ => List.isEmpty_iff.1 hempty⟩
    · cases h
  · rename_i q e hnodir hname
    obtain ⟨hfollow, hne⟩ := hlocate hname
    split at h
    · cases h
    · cases h
      exact ⟨q, e, hfollow, rfl, hne, fun m hm => absurd hm (hnodir m)⟩

theorem exists_of_emptied (hp : Reads absolute ns path) (h : d.emptied path = .ok (some d')) :
    d' = d ∨ ∃ b q m, d.follow b maxLinks (d.base absolute) ns = .ok (.at q (.dir m)) ∧
      d' = d.clear q := by
  simp only [emptied, systemText_of_reads hp] at h
  split at h
  · rename_i q m hlocate
    cases h
    exact .inr ⟨_, q, m, follow_of_reads hp hlocate, rfl⟩
  · cases h
  · cases h
  · cases h
    exact .inl rfl
  · cases h
    exact .inl rfl
  · cases h
    exact .inl rfl
  · cases h

end FileCourier.Disk
