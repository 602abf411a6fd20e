import FileCourier.Proofs.Disk.Listing
import FileCourier.Proofs.Disk.Modes
import FileCourier.Proofs.Path.Combining

/-!
# Disks without links

Where there are no links, a path that leads to a file names it in a directory
(`Linkless.exists_aims`), however the path is written. So a directory can be put at the end of a path
where a file was removed or nothing stood, and only there (`Linkless.fits_of_isFile`,
`Linkless.fits_of_makeDirectory`), and the path leads to it from then on.
-/

namespace FileCourier.Disk

open FileCourier.Path (Reads)

variable {d d' : Disk} {b absolute : Bool} {parent q : Place} {n m : Nat} {c x : Bytes}
  {ns front : List Bytes} {path other : Path} {s : Spot} {e e' : Entry}

/-- A path that leads to a directory goes on doing so while directories and links are kept. -/
theorem Keeps.isDirectory (hk : Keeps d d') (h : d.isDirectory path = true) :
    d'.isDirectory path = true := by
  obtain ⟨q, m, hfind⟩ := find_of_isDirectory h
  obtain ⟨m', hq⟩ := hk.dir (get?_of_find hfind)
  exact isDirectory_of_find (find_of_keeps hk hfind rfl hq rfl)

/-! ## Steps to a directory -/

/-- A step from a directory to itself or to the one above leads to a directory. -/
theorem exists_dir_of_step (htree : d.IsTree) (hq : d.get? q = some (.dir m))
    (hc : c = Path.dot ∨ c = Path.dotDot) (h : d.follow b n q [c] = .ok s) :
    ∃ p k, s = .at p (.dir k) := by
  have hpass : ∃ p, Passes d q [c] p := by
    rcases hc with rfl | rfl
    · exact ⟨q, .dot .nil⟩
    · exact ⟨q.dropLast, .dotDot .nil⟩
  obtain ⟨p, hpass⟩ := hpass
  obtain ⟨k, hp⟩ := hpass.exists_dir htree ⟨m, hq⟩
  have hend := follow_of_passes hpass b n []
  rw [List.append_nil, h, follow, (Ends.here hp).reach_eq] at hend
  exact ⟨p, k, Except.ok.inj hend⟩

theorem route_mk (path : Path) :
    route path.text = path.names ++ if path.endsInSlash then [Path.dot] else [] := rfl

/-- A path that leads somewhere leads to a directory, if its way ends in a step to one. -/
theorem Grounded.exists_dir_of_route (hd : d.Grounded) (hnul : 0 ∉ path.text)
    (hfind : d.find path = .ok s) (hroute : route path.text = front ++ [x])
    (hx : x = Path.dot ∨ x = Path.dotDot) : ∃ p k, s = .at p (.dir k) := by
  rw [find_of_no_nul hnul] at hfind
  have hfollow := follow_of_locate hfind
  rw [hroute, show origin d.cwd path.text = d.base path.isAbsolute from rfl] at hfollow
  obtain ⟨p, m, k, hfront, hstep⟩ :=
    follow_of_follow_append hd.tree (hd.base _) hfollow (List.cons_ne_nil x [])
  exact exists_dir_of_step hd.tree (spot_of_follow hfront) hx hstep

/-- No file is where the way of a path ends in a step to a directory. -/
theorem Grounded.isFile_of_route (hd : d.Grounded) (hnul : 0 ∉ path.text)
    (hroute : route path.text = front ++ [x]) (hx : x = Path.dot ∨ x = Path.dotDot) :
    d.isFile path = false := by
  apply Bool.eq_false_iff.2
  intro hfile
  obtain ⟨q, y, t, hfind⟩ := find_of_isFile hfile
  obtain ⟨p, k, hdir⟩ := hd.exists_dir_of_route hnul hfind hroute hx
  cases hdir

theorem Grounded.endsInSlash_of_isFile (hd : d.Grounded) (hnul : 0 ∉ path.text)
    (hfile : d.isFile path = true) : path.endsInSlash = false := by
  apply Bool.eq_false_iff.2
  intro hends
  have hroute := route_mk path
  rw [hends, if_pos rfl] at hroute
  rw [hd.isFile_of_route hnul hroute (.inl rfl)] at hfile
  cases hfile

/-- No file is at the end of a path whose last name steps to a directory. -/
theorem Grounded.isFile_of_step (hd : d.Grounded) (hnul : 0 ∉ path.text)
    (hnames : path.names = ns ++ [c]) (hc : c = Path.dot ∨ c = Path.dotDot) :
    d.isFile path = false := by
  apply Bool.eq_false_iff.2
  intro hfile
  have hroute := route_mk path
  rw [hd.endsInSlash_of_isFile hnul hfile, if_neg Bool.false_ne_true, List.append_nil, hnames]
    at hroute
  rw [hd.isFile_of_route hnul hroute hc] at hfile
  cases hfile

/-- What a path looks up last, if it leads to no directory: a name in the directory to which the names
before it lead. -/
theorem Grounded.exists_last (hd : d.Grounded) (hnul : 0 ∉ path.text) (hfind : d.find path = .ok s)
    (hdir : ∀ p k, s ≠ .at p (.dir k)) : ∃ ns parent c m,
      Reads path.isAbsolute (ns ++ [c]) path ∧ Named c ∧
      d.follow true maxLinks (d.base path.isAbsolute) ns = .ok (.at parent (.dir m)) := by
  have hroute := route_mk path
  have hends : path.endsInSlash = false := by
    apply Bool.eq_false_iff.2
    intro hends
    rw [hends, if_pos rfl] at hroute
    obtain ⟨p, k, rfl⟩ := hd.exists_dir_of_route hnul hfind hroute (.inl rfl)
    exact hdir p k rfl
  rw [hends, if_neg Bool.false_ne_true, List.append_nil] at hroute
  have hreads : Reads path.isAbsolute path.names path := ⟨rfl, rfl, hends, hnul⟩
  have hfollow := follow_of_find hreads hfind
  have hne : path.names ≠ [] := by
    intro hnil
    obtain ⟨k, hbase⟩ := hd.base path.isAbsolute
    rw [hnil, follow, (Ends.here hbase).reach_eq] at hfollow
    exact hdir _ k (Except.ok.inj hfollow).symm
  have hsplit := (List.dropLast_concat_getLast hne).symm
  generalize path.names.dropLast = ns at hsplit
  generalize path.names.getLast hne = c at hsplit
  rw [hsplit] at hreads hfollow hroute
  obtain ⟨parent, m, k, hns, hlast⟩ :=
    follow_of_follow_append hd.tree (hd.base _) hfollow (List.cons_ne_nil c [])
  -- No directory is at the end, so the last name is neither a step nor too long: it names an entry.
  have hstep : ¬(c = Path.dot ∨ c = Path.dotDot) := by
    intro hstep
    obtain ⟨p, k, rfl⟩ := hd.exists_dir_of_route hnul hfind hroute hstep
    exact hdir p k rfl
  obtain ⟨hdot, hdotDot⟩ := not_or.1 hstep
  have hlong : ¬maxName < c.length := by
    intro hlong
    rw [follow, (Ends.tooLong hdot hdotDot hlong).reach_eq] at hlast
    cases hlast
  exact ⟨ns, parent, c, m, hreads, ⟨hdot, hdotDot, Nat.not_lt.1 hlong⟩, hns⟩

/-- Names lead to the same directory while directories and links are kept. -/
theorem Keeps.exists_follow (hk : Keeps d d')
    (h : d.follow true maxLinks (d.base absolute) ns = .ok (.at q (.dir m))) :
    ∃ m', d'.follow true maxLinks (d'.base absolute) ns = .ok (.at q (.dir m')) := by
  obtain ⟨m', hdir⟩ := hk.dir (spot_of_follow h)
  refine ⟨m', ?_⟩
  rw [Disk.base, hk.cwd]
  exact follow_of_keeps hk h rfl hdir rfl

/-- A path that leads to no directory and to no link names what it leads to, also after changes that
put no link there. -/
theorem Grounded.exists_aims (hd : d.Grounded) (hnul : 0 ∉ path.text) (hfind : d.find path = .ok s)
    (hdir : ∀ p k, s ≠ .at p (.dir k))
    (hlink : ∀ q t, d.locate false path.text ≠ .ok (.at q (.link t))) :
    ∃ parent c, s.place = parent ++ [c] ∧ Aims d path parent c ∧ ∀ {d'}, Keeps d d' →
      (∀ t, d'.get? (parent ++ [c]) ≠ some (.link t)) → Aims d' path parent c := by
  obtain ⟨ns, parent, c, m, hreads, hc, hns⟩ := hd.exists_last hnul hfind hdir
  have hshort := short_of_find hnul hfind
  have hnoLink : ∀ t, d.get? (parent ++ [c]) ≠ some (.link t) := by
    intro t ht
    obtain ⟨k', hk'⟩ := follow_append hns (List.cons_ne_nil c []) false
    have hlocate : d.locate false path.text = d.follow false maxLinks _ (ns ++ [c]) :=
      locate_of_reads hreads (text_ne_nil_of_find hnul hfind) hshort
    rw [hk', follow, (Ends.linkLast hc ht rfl).reach_eq] at hlocate
    exact hlink _ t hlocate
  have haims {d' : Disk} (hkeeps : Keeps d d')
      (hnoLink' : ∀ t, d'.get? (parent ++ [c]) ≠ some (.link t)) : Aims d' path parent c := by
    obtain ⟨m', hns'⟩ := hkeeps.exists_follow hns
    exact aims_of_follow hreads hshort hns' hc hnoLink'
  have hhere := haims (keeps_refl d) hnoLink
  refine ⟨parent, c, ?_, hhere, haims⟩
  cases he : d.get? (parent ++ [c]) with
  | none =>
    rw [hhere.find_free he] at hfind
    cases hfind
    rfl
  | some e =>
    rw [hhere.find_at he] at hfind
    cases hfind
    rfl

/-! ## The part of a path that is read -/

theorem not_mem_untilNul (s : Bytes) : 0 ∉ s.untilNul := by
  intro h
  have hzero := List.all_eq_true.1 List.all_takeWhile 0 h
  cases hzero

/-- A path without what follows its first NUL. -/
def readPart (path : Path) : Path := ⟨systemText path⟩

theorem no_nul_readPart (path : Path) : 0 ∉ (readPart path).text := not_mem_untilNul path.text

theorem systemText_readPart (path : Path) : systemText (readPart path) = systemText path :=
  untilNul_of_no_nul (no_nul_readPart path)

theorem find_readPart (d : Disk) (path : Path) : d.find (readPart path) = d.find path := by
  rw [find, find, systemText_readPart]

theorem isFile_readPart (d : Disk) (path : Path) : d.isFile (readPart path) = d.isFile path := by
  rw [isFile, isFile, entryAt?, entryAt?, find_readPart]

theorem remove_readPart (d : Disk) (path : Path) : d.remove (readPart path) = d.remove path := by
  rw [remove, remove, systemText_readPart]

theorem makeDirectory_readPart (d : Disk) (path : Path) :
    d.makeDirectory (readPart path) = d.makeDirectory path := by
  rw [makeDirectory, makeDirectory, systemText_readPart]

/-- Paths with the same names lead to the same directory. -/
theorem Grounded.isDirectory_of_names (hd : d.Grounded) (h : d.isDirectory path = true)
    (habsolute : other.isAbsolute = path.isAbsolute) (hnames : other.names = path.names)
    (hshort : (systemText other).length ≤ maxPath) : d.isDirectory other = true := by
  obtain ⟨q, m, hfind⟩ := find_of_isDirectory h
  rw [← find_readPart] at hfind
  have hread : (readPart other).names = (readPart path).names := by
    rw [readPart, readPart, systemText, systemText, Path.names_untilNul, Path.names_untilNul, hnames]
  have hstart : (readPart other).isAbsolute = (readPart path).isAbsolute := by
    rw [readPart, readPart, systemText, systemText, Path.isAbsolute_untilNul,
      Path.isAbsolute_untilNul, habsolute]
  have hne : (readPart other).text ≠ [] := by
    intro hnil
    have hempty : readPart other = ⟨[]⟩ := congrArg Path.mk hnil
    rw [hempty] at hread hstart
    have hroot := Path.isAbsolute_of_names_nil hread.symm
      (text_ne_nil_of_find (no_nul_readPart path) hfind)
    rw [← hstart] at hroot
    cases hroot
  have hfollow := follow_names_of_find hd.tree (hd.base _) (no_nul_readPart path) hfind
  rw [← hread, ← hstart] at hfollow
  have hfound := find_of_follow_names (no_nul_readPart other) hne hshort hfollow
  rw [find_readPart] at hfound
  exact isDirectory_of_find hfound

/-! ## Putting directories -/

/-- A tree without links, in which relative paths start in a directory. -/
structure Linkless (d : Disk) : Prop extends Grounded d where
  noLink : ∀ q t, d.get? q ≠ some (.link t)

/-- At the end of a path a directory can be put, in a directory and where nothing or a file stands. -/
structure Fits (d : Disk) (path : Path) (q : Place) : Prop where
  ne_nil : q ≠ []
  parent : ∀ p c, q = p ++ [c] → ∃ m, d.get? p = some (.dir m)
  no_dir : ∀ m, d.get? q ≠ some (.dir m)
  find : ∀ m, (d.put q (.dir m)).find path = .ok (.at q (.dir m))

namespace Linkless

theorem put (h : d.Linkless) (hfits : d.Fits path q) (m : Nat) : (d.put q (.dir m)).Linkless where
  tree := h.tree.put hfits.parent hfits.ne_nil (.inl ⟨m, rfl⟩)
  cwd := by
    obtain ⟨k, hcwd⟩ := h.cwd
    refine ⟨k, ?_⟩
    have hne : d.cwd ≠ q := fun heq => hfits.no_dir k (heq ▸ hcwd)
    exact (get?_put_of_ne hne).trans hcwd
  noLink p t hlink := by
    by_cases hpq : p = q
    · rw [hpq, get?_put_self hfits.ne_nil] at hlink
      cases hlink
    · rw [get?_put_of_ne hpq] at hlink
      exact h.noLink p t hlink

theorem keeps_put (h : d.Linkless) (hq : q ≠ []) (hdir : ∀ m, d.get? q ≠ some (.dir m))
    (e : Entry) : Keeps d (d.put q e) :=
  keeps_put_of hq (h.noLink q) fun m hm => absurd hm (hdir m)

theorem keeps_of_fills (h : d.Linkless) {places : Place → Prop} (hfills : Fills places d d') :
    Keeps d d' := by
  refine ⟨hfills.cwd, fun {p m} hp => ⟨m, ?_⟩, fun {p l} hp => absurd hp (h.noLink p l)⟩
  exact (hfills.get? fun hplace => hplace.2 m hp).trans hp

/-- The path of a file names it in a directory. -/
theorem exists_aims (h : d.Linkless) (hnul : 0 ∉ path.text) (hfile : d.isFile path = true) :
    ∃ parent c y t, d.get? (parent ++ [c]) = some (.file y t) ∧ Aims d path parent c ∧
      Aims (d.drop (parent ++ [c])) path parent c := by
  obtain ⟨q, y, t, hfind⟩ := find_of_isFile hfile
  obtain ⟨parent, c, rfl, haims, hlater⟩ := h.toGrounded.exists_aims hnul hfind nofun
    fun q' l hlocate => h.noLink q' l (spot_of_follow (follow_of_locate hlocate))
  have hstands : d.get? (parent ++ [c]) = some (.file y t) := get?_of_find hfind
  exact ⟨parent, c, y, t, hstands, haims, hlater (keeps_drop_file hstands) fun l hl =>
    h.noLink _ l (get?_of_get?_drop hl (by simp))⟩

/-- Where a directory can be made, one may stand from then on. -/
theorem fits_of_makeDirectory (h : d.Linkless) (hmake : d.makeDirectory path = .ok d') :
    ∃ q, d.get? q = none ∧ d.Fits path q ∧ d' = d.put q (.dir openMode) := by
  obtain ⟨text, parent, c, hlocate, rfl, hfind⟩ := find_of_makeDirectory hmake
  have hfollow := follow_of_locate hlocate
  obtain ⟨hfree, -⟩ := spot_of_follow hfollow
  have hne : parent ++ [c] ≠ [] := by simp
  have hput : (d.put (parent ++ [c]) (.dir openMode)).get? (parent ++ [c]) = some (.dir openMode) :=
    get?_put_self hne
  refine ⟨parent ++ [c], hfree, ⟨hne, fun p x heq => ?_, fun m => by simp [hfree], fun m => ?_⟩, rfl⟩
  · obtain ⟨rfl, -⟩ := List.append_inj' heq rfl
    exact dir_of_follow_free h.tree (h.base (Path.mk _).isAbsolute) hfollow
  · have hk : Keeps (d.put (parent ++ [c]) (.dir openMode))
        ((d.put (parent ++ [c]) (.dir openMode)).put (parent ++ [c]) (.dir m)) :=
      keeps_put_of hne (fun t => by simp [hput]) fun _ _ => ⟨m, rfl⟩
    rw [put_put] at hk
    exact find_of_keeps hk hfind rfl (get?_put_self hne) rfl

/-- A file at the end of a path can be removed, and then a directory made in its place. -/
theorem fits_of_isFile (h : d.Linkless) (hfile : d.isFile path = true) :
    ∃ q, (∃ y t, d.get? q = some (.file y t)) ∧ d.Fits path q ∧ d.remove path = .ok (some (d.drop q)) ∧
      (d.drop q).makeDirectory path = .ok (d.put q (.dir openMode)) := by
  rw [← isFile_readPart] at hfile
  obtain ⟨parent, c, y, t, hstands, haims, hdropped⟩ := h.exists_aims (no_nul_readPart path) hfile
  have hne : parent ++ [c] ≠ [] := by simp
  have hnodir : ∀ m, d.get? (parent ++ [c]) ≠ some (.dir m) := fun m => by simp [hstands]
  have hfind := haims.find_at hstands
  rw [find_readPart] at hfind
  have hmake := hdropped.makeDirectory_eq (get?_drop_self hne)
  rw [put_drop] at hmake
  refine ⟨parent ++ [c], ⟨y, t, hstands⟩, ⟨hne, fun p x heq => ?_, hnodir, fun m => ?_⟩, ?_, ?_⟩
  · obtain ⟨rfl, -⟩ := List.append_inj' heq rfl
    exact haims.dir
  · exact find_of_keeps (h.keeps_put hne hnodir _) hfind rfl (get?_put_self hne) rfl
  · rw [← remove_readPart]
    exact haims.remove_file hstands
  · rw [← makeDirectory_readPart]
    exact hmake

end Linkless

end FileCourier.Disk
