import FileCourier.Proofs.Path.Names

/-!
# Where names lead from a directory

A path of ordinary names is looked up by its names alone (`locate_of_spells`). When some names lead
to a directory, more names are looked up from there (`follow_append`); and on a disk whose entries
all stand in directories, the first names of a path that leads anywhere lead to a directory
(`follow_of_follow_append`).
-/

namespace FileCourier.Disk

open FileCourier.Path (Ordinary Spells)

variable {d d' : Disk} {b absolute : Bool} {p q : Place} {path : Path} {names ns rest : List Bytes}
  {c : Bytes} {n m : Nat} {s : Spot}

/-- The directory at which paths start that are absolute, or not. -/
def base (d : Disk) (absolute : Bool) : Place := if absolute then [] else d.cwd

/-- Every entry stands in a directory. -/
def IsTree (d : Disk) : Prop :=
  ∀ p c, d.get? (p ++ [c]) ≠ none → ∃ m, d.get? p = some (.dir m)

/-- A tree in which relative paths start in a directory. -/
structure Grounded (d : Disk) : Prop where
  tree : d.IsTree
  cwd : ∃ m, d.get? d.cwd = some (.dir m)

theorem Grounded.base (h : d.Grounded) (absolute : Bool) :
    ∃ m, d.get? (d.base absolute) = some (.dir m) := by
  cases absolute with
  | true => exact ⟨openMode, rfl⟩
  | false => exact h.cwd

theorem exists_dir_of_below {root : Place}
    (htree : ∀ {q c}, root <+: q → d.get? (q ++ [c]) ≠ none → ∃ m, d.get? q = some (.dir m))
    (hq : root <+: q) (hne : ns ≠ []) (hsome : d.get? (q ++ ns) ≠ none) :
    ∃ m, d.get? q = some (.dir m) := by
  induction ns generalizing q with
  | nil => exact absurd rfl hne
  | cons c ns ih =>
    cases ns with
    | nil => exact htree hq hsome
    | cons c' ns =>
      rw [List.append_cons] at hsome
      obtain ⟨m, hm⟩ := ih (hq.trans (List.prefix_append q [c])) (List.cons_ne_nil c' ns) hsome
      exact htree hq (ne_none_of_get? hm)

/-- Below anything but a directory there is nothing. -/
theorem get?_below_eq_none {root : Place}
    (htree : ∀ {q c}, root <+: q → d.get? (q ++ [c]) ≠ none → ∃ m, d.get? q = some (.dir m))
    (hq : root <+: q) (hdir : ∀ m, d.get? q ≠ some (.dir m)) (hp : q <+: p) (hne : p ≠ q) :
    d.get? p = none := by
  obtain ⟨ns, rfl⟩ := hp
  refine Decidable.byContradiction fun hsome => ?_
  have hns : ns ≠ [] := fun hns => hne (by rw [hns, List.append_nil])
  obtain ⟨m, hm⟩ := exists_dir_of_below htree hq hns hsome
  exact hdir m hm

/-- Names that spell the place of a directory are passed one by one. -/
theorem passes_of_below {root : Place}
    (htree : ∀ {q c}, root <+: q → d.get? (q ++ [c]) ≠ none → ∃ m, d.get? q = some (.dir m))
    (hq : root <+: q) (hns : ∀ c ∈ ns, Named c) (hdir : d.get? (q ++ ns) = some (.dir m)) :
    Passes d q ns (q ++ ns) := by
  induction ns generalizing q with
  | nil =>
    rw [List.append_nil]
    exact .nil
  | cons c ns ih =>
    have hqc := hq.trans (List.prefix_append q [c])
    rw [List.append_cons] at hdir ⊢
    have hc : ∃ m, d.get? (q ++ [c]) = some (.dir m) := by
      by_cases hnil : ns = []
      · rw [hnil, List.append_nil] at hdir
        exact ⟨m, hdir⟩
      · exact exists_dir_of_below htree hqc hnil (ne_none_of_get? hdir)
    obtain ⟨m', hm'⟩ := hc
    exact .dir (hns c List.mem_cons_self) hm'
      (ih hqc (fun c h => hns c (List.mem_cons_of_mem _ h)) hdir)

theorem prefix_append_cases {l a b : List Bytes} (h : l <+: a ++ b) :
    l <+: a ∨ ∃ x, x ≠ [] ∧ x <+: b ∧ l = a ++ x := by
  rcases List.prefix_or_prefix_of_prefix h (List.prefix_append a b) with hl | ⟨x, rfl⟩
  · exact .inl hl
  · by_cases hx : x = []
    · rw [hx, List.append_nil]
      exact .inl (List.prefix_refl a)
    · exact .inr ⟨x, hx, (List.prefix_append_right_inj a).1 h, rfl⟩

theorem untilNul_of_no_nul {s : Bytes} (h : 0 ∉ s) : s.untilNul = s := by
  induction s with
  | nil => rfl
  | cons x s ih =>
    have hx : (x != 0) = true := bne_iff_ne.2 fun e => h (e ▸ List.mem_cons_self)
    have hs : s.takeWhile (· != 0) = s := ih fun hs => h (List.mem_cons_of_mem _ hs)
    rw [Bytes.untilNul, List.takeWhile_cons, hx, hs]
    rfl

theorem systemText_of_ordinary (h : ∀ c ∈ path.names, Ordinary c) : systemText path = path.text :=
  untilNul_of_no_nul (Path.no_nul_of_names h)

theorem locate_of_spells (h : Spells absolute ns path) (hns : ∀ c ∈ ns, Ordinary c) (hne : ns ≠ [])
    (d : Disk) (b : Bool) :
    d.locate b (systemText path) = d.follow b maxLinks (d.base absolute) ns := by
  have htext := List.isEmpty_eq_false_iff.2 (h.text_ne_nil hne)
  have hroute : route path.text = ns := by
    have hends : (Path.mk path.text).endsInSlash = false := h.endsInSlash
    rw [route, hends]
    exact (List.append_nil _).trans h.names_eq
  rw [systemText_of_ordinary (by rwa [h.names_eq]), locate, htext, if_neg (by decide),
    if_neg (Nat.not_lt.2 h.short), hroute, origin, base]
  rw [show (Path.mk path.text).isAbsolute = absolute from h.isAbsolute_eq]

/-! ## Names behind names -/

theorem follow_of_passes (h : Passes d p names q) (b : Bool) (n : Nat) (rest : List Bytes) :
    d.follow b n p (names ++ rest) = d.follow b n q rest := by
  rw [follow, follow, reach_append h]

/-- Behind a directory, names are looked up from that directory. -/
theorem follow_append (h : d.follow true n p names = .ok (.at q (.dir m))) (hrest : rest ≠ [])
    (b : Bool) : ∃ k, d.follow b n p (names ++ rest) = d.follow b k q rest := by
  -- On the links that may still be followed: the target of a link comes before the names behind it.
  induction n using Nat.strongRecOn generalizing p names with
  | ind n ih =>
    obtain ⟨passed, q', r, rfl, hpass, hend⟩ := exists_passes_ends d true p names
    rw [follow_of_passes hpass] at h
    rw [List.append_assoc, follow_of_passes hpass]
    rw [reach_append hpass] at hend
    generalize hreach : d.reach true q' r = reached at hend
    rw [follow, hreach] at h
    cases hend with
    | here =>
      cases h
      exact ⟨n, rfl⟩
    | @link c t r hc he =>
      have hmore : ¬(r ++ rest = [] ∧ b = false) :=
        fun hno => List.append_ne_nil_of_right_ne_nil r hrest hno.1
      have hlink := (Ends.link hc he hmore).reach_eq
      cases n with
      | zero => cases h
      | succ n =>
        obtain ⟨k, hk⟩ := ih n (Nat.lt_succ_self n) h
        refine ⟨k, ?_⟩
        rw [List.cons_append, follow, hlink]
        dsimp only
        rw [← List.append_assoc, hk]
    | linkLast _ _ hb => cases hb
    | nowhere | tooLong | free | missing | file | notDirectory => cases h

theorem Passes.exists_dir (htree : d.IsTree) (h : Passes d p names q)
    (hp : ∃ m, d.get? p = some (.dir m)) : ∃ m, d.get? q = some (.dir m) := by
  induction h with
  | nil => exact hp
  | dot _ ih => exact ih hp
  | @dotDot p _ _ _ ih =>
    refine ih ?_
    rcases List.eq_nil_or_concat p with rfl | ⟨p, c, rfl⟩
    · exact hp
    · rw [List.concat_eq_append] at hp ⊢
      rw [List.dropLast_concat]
      obtain ⟨m, hm⟩ := hp
      exact htree p c (ne_none_of_get? hm)
  | dir _ he _ ih => exact ih ⟨_, he⟩

/-- Why a path leads nowhere that goes on behind anything but a directory. -/
def stop : Except Errno Spot → Errno
  | .ok (.free _ _) => .missing
  | .ok (.at _ _) => .notDirectory
  | .error e => e

/-- Names that do not lead to a directory, with more behind them. -/
theorem follow_append_of_ne_dir (htree : d.IsTree) (hp : ∃ m, d.get? p = some (.dir m))
    (hdir : ∀ q m, d.follow true n p names ≠ .ok (.at q (.dir m))) (hrest : rest ≠ []) (b : Bool) :
    d.follow b n p (names ++ rest) = .error (stop (d.follow true n p names)) := by
  induction n using Nat.strongRecOn generalizing p names with
  | ind n ih =>
    obtain ⟨passed, q', r, rfl, hpass, hend⟩ := exists_passes_ends d true p names
    rw [follow_of_passes hpass] at hdir
    rw [List.append_assoc, follow_of_passes hpass, follow_of_passes hpass]
    rw [reach_append hpass] at hend
    obtain ⟨m, hq'⟩ := hpass.exists_dir htree hp
    have hbehind {r : List Bytes} : r ++ rest ≠ [] := List.append_ne_nil_of_right_ne_nil r hrest
    have hmore {r : List Bytes} (P : Prop) : ¬(r ++ rest = [] ∧ P) := fun hno => hbehind hno.1
    generalize hreach : d.reach true q' r = reached at hend
    rw [follow, hreach] at hdir
    cases hend with
    | here he =>
      rw [hq'] at he
      cases he
      exact absurd rfl (hdir q' m)
    | nowhere he =>
      rw [hq'] at he
      cases he
    | tooLong h₁ h₂ hlong =>
      rw [List.cons_append, follow, (Ends.tooLong h₁ h₂ hlong).reach_eq, follow, hreach]
      rfl
    | free hc he | missing hc he =>
      rw [List.cons_append, follow, (Ends.missing hc he (hmore _)).reach_eq, follow, hreach]
      rfl
    | file hc he | notDirectory hc he =>
      rw [List.cons_append, follow, (Ends.notDirectory hc he hbehind).reach_eq, follow, hreach]
      rfl
    | linkLast _ _ hb => cases hb
    | link hc he =>
      rw [List.cons_append, follow, (Ends.link hc he (hmore _)).reach_eq, follow, hreach]
      cases n with
      | zero => rfl
      | succ n =>
        dsimp only at hdir ⊢
        rw [← List.append_assoc]
        refine ih n (Nat.lt_succ_self n) ?_ hdir
        rw [origin]
        split
        · exact ⟨openMode, rfl⟩
        · exact ⟨m, hq'⟩

/-- When names with more behind them lead somewhere, they lead to a directory, and the rest leads on
from there. -/
theorem follow_of_follow_append (htree : d.IsTree) (hp : ∃ m, d.get? p = some (.dir m))
    (h : d.follow b n p (names ++ rest) = .ok s) (hrest : rest ≠ []) :
    ∃ q m k, d.follow true n p names = .ok (.at q (.dir m)) ∧ d.follow b k q rest = .ok s := by
  by_cases hdir : ∃ q m, d.follow true n p names = .ok (.at q (.dir m))
  · obtain ⟨q, m, hfollow⟩ := hdir
    obtain ⟨k, hk⟩ := follow_append hfollow hrest b
    exact ⟨q, m, k, hfollow, hk.symm.trans h⟩
  · have hstop := follow_append_of_ne_dir htree hp (fun q m hq => hdir ⟨q, m, hq⟩) hrest b
    rw [hstop] at h
    cases h

/-! ## Disks without links -/

theorem mem_entries_of_get? {e : Entry} (hp : p ≠ []) (h : d.get? p = some e) :
    (p, e) ∈ d.entries := by
  rw [get?_of_ne_nil hp, Option.map_eq_some_iff] at h
  obtain ⟨⟨place, e'⟩, hfind, rfl⟩ := h
  have hplace := List.find?_some hfind
  obtain rfl : place = p := by simpa using hplace
  exact List.mem_of_find?_eq_some hfind

theorem isTree_of_entries (h : ∀ e ∈ d.entries, (d.get? e.1.dropLast).any Entry.isDir = true) :
    d.IsTree := by
  intro p c hsome
  obtain ⟨e, he⟩ := Option.ne_none_iff_exists'.1 hsome
  have hdir := h _ (mem_entries_of_get? (by simp) he)
  rw [List.dropLast_concat] at hdir
  cases hp : d.get? p with
  | none =>
    rw [hp] at hdir
    cases hdir
  | some e =>
    rw [hp] at hdir
    cases e with
    | dir m => exact ⟨m, rfl⟩
    | file | link => cases hdir

theorem get?_ne_link_of_entries (h : ∀ e ∈ d.entries, Entry.isLink e.2 = false) (p : Place)
    (t : Bytes) : d.get? p ≠ some (.link t) := by
  intro hlink
  have hp : p ≠ [] := by
    rintro rfl
    cases hlink
  have hfalse := h _ (mem_entries_of_get? hp hlink)
  cases hfalse

/-- Where no link is met, names are passed one by one. -/
theorem passes_of_follow (hlink : ∀ q t, d.get? q ≠ some (.link t))
    (h : d.follow true n p names = .ok (.at q (.dir m))) : Passes d p names q := by
  obtain ⟨passed, q', r, rfl, hpass, hend⟩ := exists_passes_ends d true p names
  rw [follow_of_passes hpass, follow] at h
  rw [reach_append hpass] at hend
  generalize d.reach true q' r = reached at h hend
  cases hend with
  | here =>
    cases h
    rwa [List.append_nil]
  | link _ he => exact absurd he (hlink _ _)
  | linkLast _ _ hb => cases hb
  | nowhere | tooLong | free | missing | file | notDirectory => cases h

theorem Passes.prefix_end (h : Passes d p names q) (hup : Path.dotDot ∉ names) : p <+: q := by
  induction h with
  | nil => exact List.prefix_refl _
  | dot _ ih => exact ih fun hmem => hup (List.mem_cons_of_mem _ hmem)
  | dotDot => exact absurd List.mem_cons_self hup
  | dir _ _ _ ih =>
    exact (List.prefix_append _ _).trans (ih fun hmem => hup (List.mem_cons_of_mem _ hmem))

/-- The way down to a directory does not depend on what is below it. -/
theorem Passes.clear (h : Passes d p names q) (hup : Path.dotDot ∉ names) :
    Passes (d.clear q) p names q := by
  induction h with
  | nil => exact .nil
  | dot _ ih => exact .dot (ih fun hmem => hup (List.mem_cons_of_mem _ hmem))
  | dotDot => exact absurd List.mem_cons_self hup
  | @dir p q c r m hc he hrest ih =>
    have hr : Path.dotDot ∉ r := fun hmem => hup (List.mem_cons_of_mem _ hmem)
    have hend := hrest.prefix_end hr
    refine .dir (m := m) hc ?_ (ih hr)
    rw [get?_clear_of_not_below, he]
    rintro ⟨hbelow, hne⟩
    exact hne (hend.eq_of_length_le hbelow.length_le)

/-- Where there are no links, the way down to a directory is the same when what is below it is
gone. -/
theorem find_clear (hlink : ∀ q t, d.get? q ≠ some (.link t))
    (hnames : ∀ c ∈ path.names, Ordinary c) (h : d.find path = .ok (.at q (.dir m))) :
    (d.clear q).find path = .ok (.at q (.dir m)) := by
  have hdir : (d.clear q).get? q = some (.dir m) := by
    rw [get?_clear_of_not_below fun hbelow => hbelow.2 rfl]
    exact get?_of_find h
  have hup : Path.dotDot ∉ route path.text := by
    intro hmem
    rcases List.mem_append.1 hmem with hmem | hmem
    · exact (hnames _ hmem).ne_dotDot rfl
    · split at hmem
      · exact absurd (List.mem_singleton.1 hmem) (by decide)
      · cases hmem
  rw [find, systemText_of_ordinary hnames] at h ⊢
  have hpass := (passes_of_follow hlink (follow_of_locate h)).clear hup
  have hfollow := follow_of_passes hpass true maxLinks []
  have hend : (d.clear q).follow true maxLinks q [] = .ok (.at q (.dir m)) := by
    rw [follow, (Ends.here hdir).reach_eq]
  rw [List.append_nil, hend] at hfollow
  rw [locate] at h ⊢
  split at h
  · cases h
  split at h
  · cases h
  rw [if_neg ‹_›, if_neg ‹_›]
  exact hfollow

/-! ## The way to a directory -/

/-- From where relative or absolute paths start, the names lead to a directory, and so do the first
of them. -/
def Way (d : Disk) (absolute : Bool) (names : List Bytes) (q : Place) : Prop :=
  ∀ ns rest, names = ns ++ rest → ∃ q' m,
    d.follow true maxLinks (d.base absolute) ns = .ok (.at q' (.dir m)) ∧ (rest = [] → q' = q)

theorem way_of_follow {absolute : Bool} (htree : d.IsTree)
    (hbase : ∃ m, d.get? (d.base absolute) = some (.dir m))
    (h : d.follow true maxLinks (d.base absolute) names = .ok (.at q (.dir m))) :
    d.Way absolute names q := by
  rintro ns rest rfl
  by_cases hrest : rest = []
  · rw [hrest, List.append_nil] at h
    exact ⟨q, m, h, fun _ => rfl⟩
  · obtain ⟨q', m', k, hns, -⟩ := follow_of_follow_append htree hbase h hrest
    exact ⟨q', m', hns, fun hnil => absurd hnil hrest⟩

theorem get?_of_follow_cons {e : Entry} (hdot : c ≠ Path.dot) (hdotDot : c ≠ Path.dotDot)
    (h : d.follow b n p (c :: rest) = .ok (.at q e)) : d.get? (p ++ [c]) ≠ none := by
  intro he
  rw [follow, reach, if_neg hdot, if_neg hdotDot, he] at h
  by_cases hlong : maxName < c.length
  · rw [if_pos hlong] at h
    cases h
  · rw [if_neg hlong] at h
    by_cases hfree : rest = [] ∧ d.get? p ≠ none
    · simp only [if_pos hfree] at h
      cases h
    · simp only [if_neg hfree] at h
      cases h

theorem exists_dir_of_follow {e : Entry} (htree : d.IsTree) (hdot : c ≠ Path.dot)
    (hdotDot : c ≠ Path.dotDot) (h : d.follow b n p (c :: rest) = .ok (.at q e)) :
    ∃ m, d.get? p = some (.dir m) :=
  htree p c (get?_of_follow_cons hdot hdotDot h)

theorem find_of_no_nul (hnul : 0 ∉ path.text) : d.find path = d.locate true path.text := by
  rw [find, systemText, untilNul_of_no_nul hnul]

theorem text_ne_nil_of_find (hnul : 0 ∉ path.text) (h : d.find path = .ok s) : path.text ≠ [] := by
  intro htext
  rw [find_of_no_nul hnul, htext] at h
  cases h

/-- The names of a path that leads to a directory lead there, whether or not a slash follows them. -/
theorem follow_names_of_find (htree : d.IsTree)
    (hbase : ∃ m, d.get? (d.base path.isAbsolute) = some (.dir m)) (hnul : 0 ∉ path.text)
    (h : d.find path = .ok (.at q (.dir m))) :
    d.follow true maxLinks (d.base path.isAbsolute) path.names = .ok (.at q (.dir m)) := by
  rw [find_of_no_nul hnul] at h
  have hfollow : d.follow true maxLinks (d.base path.isAbsolute)
      (path.names ++ if path.endsInSlash then [Path.dot] else []) = .ok (.at q (.dir m)) :=
    follow_of_locate h
  cases hends : path.endsInSlash with
  | false =>
    rw [hends, if_neg (by decide), List.append_nil] at hfollow
    exact hfollow
  | true =>
    -- The dot for the slash at the end leads from the directory to itself.
    rw [hends, if_pos rfl] at hfollow
    obtain ⟨q', m', k, hnames, hrest⟩ :=
      follow_of_follow_append htree hbase hfollow (List.cons_ne_nil _ _)
    have hq' : d.get? q' = some (.dir m') := spot_of_follow hnames
    have hdot : d.follow true k q' ([Path.dot] ++ []) = .ok (.at q' (.dir m')) := by
      rw [follow_of_passes (Passes.dot .nil), follow, (Ends.here hq').reach_eq]
    cases hdot.symm.trans hrest
    exact hnames

/-- A path of ordinary names that leads to a directory is a way to it. -/
theorem way_of_find (htree : d.IsTree) (hnames : ∀ c ∈ path.names, Ordinary c)
    (h : d.find path = .ok (.at q (.dir m))) : d.Way path.isAbsolute path.names q := by
  have hnul := Path.no_nul_of_names hnames
  have hbase : ∃ m, d.get? (d.base path.isAbsolute) = some (.dir m) := by
    cases hcons : path.names with
    | nil =>
      rw [Path.isAbsolute_of_names_nil hcons (text_ne_nil_of_find hnul h)]
      exact ⟨openMode, rfl⟩
    | cons c r =>
      have hc := hnames c (hcons ▸ List.mem_cons_self)
      rw [find_of_no_nul hnul] at h
      have hfollow : d.follow true maxLinks (d.base path.isAbsolute)
          (path.names ++ if path.endsInSlash then [Path.dot] else []) = .ok (.at q (.dir m)) :=
        follow_of_locate h
      rw [hcons, List.cons_append] at hfollow
      exact exists_dir_of_follow htree hc.ne_dot hc.ne_dotDot hfollow
  exact way_of_follow htree hbase (follow_names_of_find htree hbase hnul h)

theorem Way.of_keeps {names : List Bytes} (hk : Keeps d d') (h : d.Way absolute names q) :
    d'.Way absolute names q := by
  intro ns rest hsplit
  obtain ⟨q', m, hfollow, hq'⟩ := h ns rest hsplit
  have hdir : d.get? q' = some (.dir m) := spot_of_follow hfollow
  obtain ⟨m', hdir'⟩ := hk.dir hdir
  have hbase : d'.base absolute = d.base absolute := by rw [base, base, hk.cwd]
  rw [hbase]
  exact ⟨q', m', follow_of_keeps hk hfollow rfl hdir' rfl, hq'⟩

end FileCourier.Disk
