import FileCourier.Proofs.Disk.Missing
import FileCourier.Proofs.Disk.Removing
import Mathlib.Data.List.Find

/-!
# A file that is moved

A file is put under a name that is free, directories are made for its destination, and it is renamed.
In the end the disk is the one on which only the directories were made, with the file at the place that
the destination names (`delivered_of_rename`): a path names the same place with the file and without
(`Grounded.locateName_drop_file`), and of all entries only that of the file is moved
(`IsTree.get?_move`). Under its own path the file is gone, as it is when it is discarded instead
(`discard_put_of_free`).
-/

namespace FileCourier.Disk

variable {d d' d₁ d₂ : Disk} {b : Bool} {p q old new parent : Place} {names : List Bytes} {c text : Bytes}
  {e : Entry} {path source target : Path} {spot : Spot} {l : List Path} {n : Nat} {x : Bool} {s : Bytes}

theorem get?_ne_none_of_mem {y : Place × Entry} (hy : y ∈ d.entries) : d.get? y.1 ≠ none := by
  by_cases hnil : y.1 = []
  · rw [hnil]
    exact Option.some_ne_none _
  · rw [get?_of_ne_nil hnil, ne_eq, Option.map_eq_none_iff, List.find?_eq_none]
    exact fun hnone => hnone y hy (beq_self_eq_true y.1)

/-- What is put where nothing stood can be taken away again. -/
theorem drop_put_of_none (h : d.get? p = none) (e : Entry) : (d.put p e).drop p = d := by
  have hkeep : d.entries.filter (fun y => y.1 != p) = d.entries := by
    refine List.filter_eq_self.2 fun y hy => bne_iff_ne.2 ?_
    rintro rfl
    exact get?_ne_none_of_mem hy h
  simp [put, drop, hkeep]

/-! ## A name that is free -/

/-- A walk that ends at a free name ends with that name. -/
theorem getLast?_of_follow_free (h : d.follow false n p names = .ok (.free q c)) :
    names.getLast? = some c ∧ Named c := by
  rw [follows_iff] at h
  generalize hs : Spot.free q c = free at h
  induction h with
  | @spot _ p names _ hr =>
    subst hs
    obtain ⟨passed, q', rest, rfl, -, hend⟩ := exists_passes_ends d false p names
    rw [hr] at hend
    cases hend with
    | free hc => exact ⟨List.getLast?_concat, hc⟩
  | link hreach _ ih =>
    rw [← getLast?_of_reach_link hreach]
    exact ih hs

/-- A path that leads to a free name does not end in a slash, and names on every disk what it leads to
there. -/
theorem named_of_free (h : d.locate false text = .ok (.free parent c)) :
    (Path.mk text).endsInSlash = false ∧ ∀ d' : Disk, d'.locateName text = d'.locate false text := by
  obtain ⟨hlast, hc⟩ := getLast?_of_follow_free (follow_of_locate h)
  have hends : (Path.mk text).endsInSlash = false := by
    refine Bool.eq_false_iff.2 fun hends => ?_
    rw [route, hends, if_pos rfl, List.getLast?_concat] at hlast
    exact hc.ne_dot (Option.some.inj hlast).symm
  rw [route, hends, if_neg Bool.false_ne_true, List.append_nil] at hlast
  have hshort : ¬maxPath < text.length := by
    intro hlong
    rw [locate, if_pos hlong] at h
    split at h <;> cases h
  have hnames : (Path.mk text).names ≠ [] := fun hnil => by
    rw [hnil] at hlast
    cases hlast
  have htrim := Path.trimEnd_of_last (Path.last_of_not_endsInSlash hnames hends)
  refine ⟨hends, fun d' => ?_⟩
  rw [locateName, hlast]
  dsimp only
  rw [if_neg (not_or.2 ⟨hc.ne_dot, hc.ne_dotDot⟩), if_neg hshort]
  exact congrArg (d'.locate false) htrim

section Fresh

variable (hfree : d.locate false (systemText path) = .ok (.free parent c))
include hfree

/-- What is put under a free name is named by the path. -/
theorem locateName_of_free (hk : Keeps d d') (hfile : d'.get? (parent ++ [c]) = some (.file x s)) :
    d'.locateName (systemText path) = .ok (.at (parent ++ [c]) (.file x s)) := by
  rw [(named_of_free hfree).2]
  exact locate_of_keeps hk hfree rfl hfile rfl

theorem remove_of_free (hk : Keeps d d') (hfile : d'.get? (parent ++ [c]) = some (.file x s)) :
    d'.remove path = .ok (some (d'.drop (parent ++ [c]))) := by
  rw [remove, locateName_of_free hfree hk hfile]
  dsimp only
  rw [(named_of_free hfree).1, if_neg Bool.false_ne_true]

/-- A fresh file that is discarded leaves nothing. -/
theorem discard_put_of_free : (Chores.discard path (d.put (parent ++ [c]) (.file x s))).2 = d := by
  obtain ⟨hnone, -⟩ := spot_of_follow (follow_of_locate hfree)
  rw [Chores.snd_discard, remove_of_free hfree (grows_put hnone _).keeps (get?_put_self (by simp))]
  exact drop_put_of_none hnone _

end Fresh

/-- Whether a path names anything that can be looked up does not depend on the disk. -/
theorem locateName_eq (h : d.locateName text = .ok spot) (d' : Disk) :
    d'.locateName text = d'.locate false (Path.trimEnd text) := by
  obtain ⟨c, hlast, hdot, hdotDot⟩ := exists_last_of_locateName h
  obtain ⟨-, hshort, -⟩ := locate_of_locateName h
  rw [locateName, hlast]
  dsimp only
  rw [if_neg (not_or.2 ⟨hdot, hdotDot⟩), if_neg (Nat.not_lt.2 hshort)]

/-! ## Without a file -/

/-- A walk to a spot leads to the same place when a file has been taken away. -/
theorem reach_drop_file (htree : d.IsTree) (hp : ∃ m, d.get? p = some (.dir m))
    (hfile : d.get? q = some (.file x s)) (h : d.reach b p names = .spot spot) :
    ∃ spot', (d.drop q).reach b p names = .spot spot' ∧ spot'.place = spot.place := by
  have hk := keeps_drop_file hfile
  obtain ⟨passed, q', rest, rfl, hpass, hend⟩ := exists_passes_ends d b p names
  rw [h] at hend
  rw [reach_append (hpass.of_keeps hk)]
  obtain ⟨m, hdir⟩ := hpass.exists_dir htree hp
  obtain ⟨m', hdir'⟩ := hk.dir hdir
  cases hend with
  | here he =>
    rw [hdir] at he
    cases he
    exact ⟨_, (Ends.here hdir').reach_eq, rfl⟩
  | @free c hc he =>
    have hne : q' ++ [c] ≠ q := fun heq => by simp [← heq, he] at hfile
    have hnone := (get?_drop_of_ne hne).trans he
    exact ⟨_, (Ends.free hc hnone (ne_none_of_get? hdir')).reach_eq, rfl⟩
  | @file c y t hc he =>
    by_cases hq : q' ++ [c] = q
    · have hnone : (d.drop q).get? (q' ++ [c]) = none := by
        rw [hq]
        exact get?_drop_self (ne_nil_of_file hfile)
      exact ⟨_, (Ends.free hc hnone (ne_none_of_get? hdir')).reach_eq, rfl⟩
    · exact ⟨_, (Ends.file hc ((get?_drop_of_ne hq).trans he)).reach_eq, rfl⟩
  | linkLast hc he hb => exact ⟨_, (Ends.linkLast hc (hk.link he) hb).reach_eq, rfl⟩

theorem follow_drop_file (htree : d.IsTree) (hp : ∃ m, d.get? p = some (.dir m))
    (hfile : d.get? q = some (.file x s)) (h : d.follow b n p names = .ok spot) :
    ∃ spot', (d.drop q).follow b n p names = .ok spot' ∧ spot'.place = spot.place := by
  rw [follows_iff] at h
  induction h with
  | spot hr =>
    obtain ⟨spot', hr', hplace⟩ := reach_drop_file htree hp hfile hr
    exact ⟨spot', follows_iff.2 (.spot hr'), hplace⟩
  | link hr _ ih =>
    obtain ⟨spot', hfollow, hplace⟩ := ih (exists_dir_of_reach_link htree hp hr)
    have hr' := reach_link_of_keeps (keeps_drop_file hfile) hr
    exact ⟨spot', follows_iff.2 (.link hr' (follows_iff.1 hfollow)), hplace⟩

/-- A path names the same place when a file has been taken away, even if it is that of the file. -/
theorem Grounded.locateName_drop_file (hd : d.Grounded) (hfile : d.get? q = some (.file x s))
    (hname : d.locateName text = .ok spot) :
    ∃ spot', (d.drop q).locateName text = .ok spot' ∧ spot'.place = spot.place := by
  obtain ⟨-, -, h⟩ := locate_of_locateName hname
  rw [locateName_eq hname, locate]
  rw [locate] at h
  split at h
  · cases h
  split at h
  · cases h
  rw [if_neg ‹_›, if_neg ‹_›]
  exact follow_drop_file hd.tree (hd.base (Path.mk _).isAbsolute) hfile h

/-! ## Renaming a file -/

/-- The same stands at each place. -/
structure Alike (d d' : Disk) : Prop where
  cwd : d'.cwd = d.cwd
  get? : ∀ q, d'.get? q = d.get? q

theorem Alike.keeps (h : Alike d₁ d₂) (hk : Keeps d d₁) : Keeps d d₂ where
  cwd := h.cwd.trans hk.cwd
  dir hp := by
    rw [h.get?]
    exact hk.dir hp
  link hp := (h.get? _).trans (hk.link hp)

/-- Of all entries only that of a file is moved with it. -/
theorem IsTree.entries_move (htree : d.IsTree) (hold : d.get? old = some (.file x s)) (new : Place) :
    (d.move old new).entries = d.entries.map fun y => if y.1 = old then (new, y.2) else y := by
  refine List.map_congr_left fun y hy => ?_
  by_cases hkey : y.1 = old
  · simp [hkey]
  · have hnot : ¬old <+: y.1 := fun hbelow =>
      get?_ne_none_of_mem hy (htree.get?_below (fun m => by simp [hold]) hbelow hkey)
    rw [if_neg hkey, if_neg (fun hpre => hnot (List.isPrefixOf_iff_prefix.1 hpre))]

/-- A file that is moved is taken away and put at the other place. -/
theorem IsTree.get?_move (htree : d.IsTree) (hold : d.get? old = some (.file x s))
    (hnew : d.get? new = none) (q : Place) :
    (d.move old new).get? q = ((d.drop old).put new (.file x s)).get? q := by
  have hne : new ≠ old := by
    rintro rfl
    cases hold.symm.trans hnew
  have hnil : new ≠ [] := by
    rintro rfl
    cases hnew
  -- Nothing was at the new place, so what is found there is what was at the old one.
  have hkeys {y : Place × Entry} (hy : y ∈ d.entries) : y.1 ≠ new := by
    rintro rfl
    exact get?_ne_none_of_mem hy hnew
  by_cases hq : q = []
  · rw [hq, get?_nil, get?_nil]
  rw [get?_of_ne_nil hq, htree.entries_move hold, List.find?_map, Option.map_map]
  have hentry : (·.2) ∘ (fun y : Place × Entry => if y.1 = old then (new, y.2) else y) = (·.2) := by
    funext y
    by_cases hy : y.1 = old <;> simp [hy]
  rw [hentry]
  by_cases hqnew : q = new
  · subst hqnew
    rw [get?_put_self hnil, ← hold, get?_of_ne_nil (ne_nil_of_file hold)]
    congr 1
    refine List.find?_congr fun y hy => ?_
    by_cases hold' : y.1 = old <;> simp [hold', hkeys hy]
  · rw [get?_put_of_ne hqnew]
    by_cases hqold : q = old
    · subst hqold
      rw [get?_drop_self hq, Option.map_eq_none_iff, List.find?_eq_none]
      intro y _
      by_cases hold' : y.1 = q <;> simp [hold', Ne.symm hqnew]
    · rw [get?_drop_of_ne hqold, get?_of_ne_nil hq]
      congr 1
      refine List.find?_congr fun y _ => ?_
      by_cases hold' : y.1 = old <;> simp [hold', Ne.symm hqnew, Ne.symm hqold]

/-- A file takes the place of a file or a link. -/
theorem IsTree.alike_replaced (htree : d.IsTree) (hold : d.get? old = some (.file x s))
    (hdir : ∀ m, d.get? new ≠ some (.dir m)) :
    Alike ((d.drop old).put new (.file x s)) (if old = new then d else (d.drop new).move old new) := by
  have hnil : new ≠ [] := by
    rintro rfl
    exact hdir _ rfl
  split
  · rename_i hsame
    subst hsame
    refine ⟨rfl, fun q => ?_⟩
    rw [put_drop]
    by_cases hq : q = old
    · rw [hq, get?_put_self hnil, hold]
    · rw [get?_put_of_ne hq]
  · rename_i hne
    have htree' : (d.drop new).IsTree := htree.drop hnil fun _ => htree.get?_below hdir
    have hmove := htree'.get?_move ((get?_drop_of_ne hne).trans hold) (get?_drop_self hnil)
    rw [drop_comm, put_drop] at hmove
    exact ⟨rfl, hmove⟩

/-- A file that is renamed stands at the place that the new path names, where no directory was, and is
gone from its own. -/
theorem exists_of_rename (htree : d.IsTree)
    (hsource : d.locateName (systemText source) = .ok (.at old (.file x s)))
    (h : d.rename source target = .ok d') :
    ∃ spot, d.locateName (systemText target) = .ok spot ∧
      (Path.mk (systemText target)).endsInSlash = false ∧ (∀ m, d.get? spot.place ≠ some (.dir m)) ∧
      Alike ((d.drop old).put spot.place (.file x s)) d' := by
  have hold : d.get? old = some (.file x s) :=
    spot_of_follow (follow_of_locate (locate_of_locateName hsource).2.2)
  simp only [rename, hsource] at h
  split at h
  · cases h
  · cases h
  · cases h
  · rename_i spot heq htarget
    cases heq
    have hon : spot.IsOn d := spot_of_follow (follow_of_locate (locate_of_locateName htarget).2.2)
    dsimp only at h
    split at h
    · cases h
    rename_i hslash
    obtain ⟨-, hends⟩ := Bool.or_eq_false_iff.1 (Bool.eq_false_iff.2 hslash)
    refine ⟨spot, htarget, hends, ?_⟩
    split at h
    · rename_i parent c
      cases h
      have hnone : d.get? (parent ++ [c]) = none := hon.1
      exact ⟨fun m hdir => (by cases hnone.symm.trans hdir), rfl, htree.get?_move hold hnone⟩
    · cases h
    · rename_i new e hnodir
      have hdir (m : Nat) : d.get? new ≠ some (.dir m) := fun hdir =>
        hnodir m (Option.some.inj ((show d.get? new = some e from hon).symm.trans hdir))
      have hreplaced := htree.alike_replaced hold hdir
      refine ⟨hdir, ?_⟩
      split at h <;> rename_i hcase <;> cases h
      · rwa [if_pos hcase] at hreplaced
      · rwa [if_neg hcase] at hreplaced

/-! ## Directories that are made on the way -/

/-- Nothing is new but directories to which the path leads, or a path above it. -/
structure Raised (path : Path) (d d' : Disk) : Prop extends Grows d d' where
  made : ∀ q, d'.get? q = d.get? q ∨
    ∃ k, d'.find (Path.parent^[k] path) = .ok (.at q (.dir openMode))

theorem Raised.refl (path : Path) (d : Disk) : Raised path d d := ⟨.refl d, fun _ => .inl rfl⟩

theorem Raised.trans (h : Raised path d d₁) (h' : Raised path d₁ d₂) : Raised path d d₂ := by
  refine ⟨h.toGrows.trans h'.toGrows, fun q => ?_⟩
  rcases h'.made q with hsame | hmade
  · rcases h.made q with hsame' | ⟨k, hfind⟩
    · exact .inl (hsame.trans hsame')
    · exact .inr ⟨k, find_of_keeps h'.keeps hfind rfl (h'.get? (get?_of_find hfind)) rfl⟩
  · exact .inr hmade

theorem raised_makeDirectory (hd : d.Grounded) {k : Nat}
    (h : d.makeDirectory (Path.parent^[k] path) = .ok d') : Raised path d d' := by
  obtain ⟨hgrows, -⟩ := hd.makeDirectory h
  obtain ⟨-, parent, c, -, rfl, hfind⟩ := find_of_makeDirectory h
  refine ⟨hgrows, fun q => ?_⟩
  by_cases hq : q = parent ++ [c]
  · exact .inr ⟨k, hq ▸ hfind⟩
  · exact .inl (get?_put_of_ne hq)

theorem raised_makeEach (hd : d.Grounded) (hl : ∀ p ∈ l, ∃ k, p = Path.parent^[k] path) :
    Raised path d (d.makeEach l).2 := by
  induction l generalizing d with
  | nil => exact .refl path d
  | cons p l ih =>
    have hrest := fun p hp => hl p (List.mem_cons_of_mem _ hp)
    obtain ⟨k, rfl⟩ := hl p List.mem_cons_self
    rw [Disk.makeEach]
    split
    · rename_i d₁ hmake
      exact (raised_makeDirectory hd hmake).trans (ih (hd.makeDirectory hmake).2 hrest)
    · split
      · exact ih hd hrest
      · exact .refl path d
    · exact .refl path d

theorem raised_makeDirectories (hd : d.Grounded) (path : Path) :
    Raised path d (d.makeDirectories path).2 := by
  rcases d.makeDirectories_cases path with ⟨r, hsame⟩ | ⟨l, hl, hmade⟩
  · rw [hsame]
    exact .refl path d
  · rw [hmade]
    exact raised_makeEach hd hl

/-- The directories could have been made without the file that was put there before. -/
theorem Raised.drop_file (h : Raised path (d.put p (.file x s)) d') (hnone : d.get? p = none) :
    d'.get? p = some (.file x s) ∧ Raised path d (d'.drop p) := by
  have hp : p ≠ [] := by
    rintro rfl
    cases hnone
  have hfile : d'.get? p = some (.file x s) := h.get? (get?_put_self hp)
  refine ⟨hfile, ⟨⟨h.cwd, fun {q e} hq => ?_⟩, fun q => ?_⟩⟩
  · have hne : q ≠ p := by
      rintro rfl
      cases hnone.symm.trans hq
    rw [get?_drop_of_ne hne]
    exact h.get? ((get?_put_of_ne hne).trans hq)
  · by_cases hq : q = p
    · rw [hq, get?_drop_self hp, hnone]
      exact .inl rfl
    · rw [get?_drop_of_ne hq]
      rcases h.made q with hsame | ⟨k, hfind⟩
      · exact .inl (hsame.trans (get?_put_of_ne hq))
      · have hdir := (get?_drop_of_ne hq).trans (get?_of_find hfind)
        exact .inr ⟨k, find_of_keeps (keeps_drop_file hfile) hfind rfl hdir rfl⟩

/-! ## The file in its place -/

/-- When a file takes the place of the link to which a walk leads, the walk leads to the file, unless
it has followed that link itself. -/
theorem follow_of_link_replaced {t : Bytes} (h : Within (· = q) d d')
    (hlink : d.get? q = some (.link t)) (hfile : d'.get? q = some (.file x s))
    (hfollow : d.follow false n p names = .ok (.at q (.link t))) (b : Bool) :
    d'.follow b n p names = .ok (.at q (.file x s)) ∨
      d'.follow b n p names = .error .notDirectory := by
  have hother {r : Place} {e : Entry} (hr : d.get? r = some e) (hne : e ≠ .link t) :
      d'.get? r = some e := by
    rw [h.get?, hr]
    rintro rfl
    exact hne (Option.some.inj (hr.symm.trans hlink))
  rw [follows_iff] at hfollow
  generalize hs : Spot.at q (.link t) = spot at hfollow
  induction hfollow with
  | @spot _ p names _ hr =>
    subst hs
    obtain ⟨passed, q', rest, rfl, hpass, hend⟩ := exists_passes_ends d false p names
    have hpass' : Passes d' p passed q' := hpass.of_dirs fun hr => ⟨_, hother hr nofun⟩
    rw [hr] at hend
    rw [follow, reach_append hpass']
    cases hend with
    | here => exact .inl (by rw [(Ends.here hfile).reach_eq])
    | linkLast hc => exact .inl (by rw [(Ends.file hc hfile).reach_eq])
  | @link _ p here names rest _ _ hr _ ih =>
    obtain ⟨passed, q', r, rfl, hpass, hend⟩ := exists_passes_ends d false p names
    have hpass' : Passes d' p passed q' := hpass.of_dirs fun hr => ⟨_, hother hr nofun⟩
    rw [hr] at hend
    rw [follow, reach_append hpass']
    cases hend with
    | @link c _ _ hc he hmore =>
      have hrest : rest ≠ [] := fun hnil => hmore ⟨hnil, rfl⟩
      by_cases hq : here ++ [c] = q
      · rw [← hq] at hfile
        exact .inr (by rw [(Ends.notDirectory hc hfile hrest).reach_eq])
      · have he' := (h.get? hq).trans he
        rw [(Ends.link hc he' fun hno => hrest hno.1).reach_eq]
        exact ih hs

theorem locate_of_link_replaced {t : Bytes} (h : Within (· = q) d d')
    (hfile : d'.get? q = some (.file x s)) (hlocate : d.locate false text = .ok (.at q (.link t))) :
    d'.locate true text = .ok (.at q (.file x s)) ∨ d'.locate true text = .error .notDirectory := by
  have hlink : d.get? q = some (.link t) := spot_of_follow (follow_of_locate hlocate)
  rw [locate] at hlocate ⊢
  split at hlocate
  · cases hlocate
  split at hlocate
  · cases hlocate
  rw [if_neg ‹_›, if_neg ‹_›, h.cwd]
  exact follow_of_link_replaced h hlink hfile hlocate true

/-- A path leads to a file that is put at the place to which it leads, if no link was there. -/
theorem locate_of_put (hlocate : d.locate true text = .ok spot) (hspot : spot.isLink = false)
    (hdir : ∀ m, d.get? spot.place ≠ some (.dir m)) (h : Alike (d.put spot.place (.file x s)) d')
    (hfile : d'.get? spot.place = some (.file x s)) :
    d'.locate true text = .ok (.at spot.place (.file x s)) := by
  have hon : spot.IsOn d := spot_of_follow (follow_of_locate hlocate)
  have hkeeps : Keeps d (d.put spot.place (.file x s)) := keeps_put fun e he => by
    cases e with
    | file y t => exact ⟨y, t, rfl⟩
    | dir m => exact absurd he (hdir m)
    | link t =>
      cases spot with
      | free => cases he.symm.trans hon.1
      | «at» =>
        cases he.symm.trans hon
        cases hspot
  exact locate_of_keeps (h.keeps hkeeps) hlocate hspot hfile rfl

/-- A file with the content stands at the place that the path names, and nothing else differs. The path
leads to it, unless it took the place of a link by which the path itself was led. -/
structure Delivered (path : Path) (content : Bytes) (d d' : Disk) (spot : Spot) : Prop where
  named : d.locateName (systemText path) = .ok spot
  file : ∃ x, Alike (d.put spot.place (.file x content)) d'
  found : (∃ x, d'.find path = .ok (.at spot.place (.file x content))) ∨
    spot.isLink = true ∧ d'.find path = .error .notDirectory

/-- A file that is put at the place that a path names is delivered. -/
theorem delivered_of_named (hname : d.locateName (systemText path) = .ok spot)
    (hends : (Path.mk (systemText path)).endsInSlash = false)
    (hdir : ∀ m, d.get? spot.place ≠ some (.dir m))
    (h : Alike (d.put spot.place (.file x s)) d') : Delivered path s d d' spot := by
  have hlocate := locate_of_named hname hends
  have hne : spot.place ≠ [] := fun hnil => hdir openMode (hnil ▸ rfl)
  have hfile : d'.get? spot.place = some (.file x s) := (h.get? _).trans (get?_put_self hne)
  refine ⟨hname, ⟨x, h⟩, ?_⟩
  cases hspot : spot.isLink with
  | false => exact .inl ⟨x, locate_of_put (locate_true_of_false hlocate hspot) hspot hdir h hfile⟩
  | true =>
    cases spot with
    | free => cases hspot
    | «at» q e =>
      cases e with
      | file | dir => cases hspot
      | link t =>
        have hwithin : Within (· = q) d d' := ⟨h.cwd, fun hq => (h.get? _).trans (get?_put_of_ne hq)⟩
        rcases locate_of_link_replaced hwithin hfile hlocate with hfind | hstop
        · exact .inl ⟨x, hfind⟩
        · exact .inr ⟨rfl, hstop⟩

/-- A fresh file is put under a path, directories are made, and then it is renamed: it is delivered on
the disk on which nothing but the directories was made. -/
theorem delivered_of_rename (hfree : d.locate false (systemText source) = .ok (.free parent c))
    (hraised : Raised path (d.put (parent ++ [c]) (.file x s)) d₂) (hd₂ : d₂.Grounded)
    (h : d₂.rename source target = .ok d') :
    ∃ d₁ spot, d₁ = d₂.drop (parent ++ [c]) ∧ Raised path d d₁ ∧ Delivered target s d₁ d' spot := by
  obtain ⟨hnone, -⟩ := spot_of_follow (follow_of_locate hfree)
  obtain ⟨hfile, hraised'⟩ := hraised.drop_file hnone
  have hkeeps : Keeps d d₂ := ((grows_put hnone _).trans hraised.toGrows).keeps
  have hsource := locateName_of_free hfree hkeeps hfile
  obtain ⟨spot₂, hname₂, hends, hdir, halike⟩ := exists_of_rename hd₂.tree hsource h
  obtain ⟨spot, hname, hplace⟩ := hd₂.locateName_drop_file hfile hname₂
  rw [← hplace] at hdir halike
  have hdir' (m : Nat) : (d₂.drop (parent ++ [c])).get? spot.place ≠ some (.dir m) := fun hm =>
    hdir m (get?_of_get?_drop hm (by simp))
  exact ⟨_, spot, rfl, hraised', delivered_of_named hname hends hdir' halike⟩

/-- Every other file stood there before. -/
theorem Raised.file_before (hraised : Raised path d d₁) (halike : Alike (d₁.put p e) d') (hq : q ≠ p)
    (hfile : d'.get? q = some (.file x s)) : d.get? q = some (.file x s) := by
  rw [halike.get?, get?_put_of_ne hq] at hfile
  rcases hraised.made q with hsame | ⟨k, hfind⟩
  · exact hsame.symm.trans hfile
  · cases hfile.symm.trans (get?_of_find hfind)

end FileCourier.Disk
