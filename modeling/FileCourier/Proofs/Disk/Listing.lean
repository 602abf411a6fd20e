import FileCourier.Proofs.Disk.Changes
import FileCourier.Proofs.Disk.Walk
import FileCourier.Proofs.Path.Joining
import Mathlib.Data.List.Nodup

/-!
# What a walk finds below a directory

A walk descends from a directory through directories and through links whose paths lead to
directories (`Descends`), and finds exactly what it can descend to (`mem_walk_iff`). On a disk that
is in order (`Sound`) this agrees with looking paths up: a path along some names leads to what the
walk finds under these names, provided the path is not too long to be looked up
(`Descends.entryAt?_eq`, `exists_descends`). So a link cycle does no harm: the walk only goes round
in it while the path can still be looked up.
-/

namespace FileCourier.Disk

open FileCourier.Path (Ordinary Proper Reads)

variable {d : Disk} {here root path : Path} {place q : Place} {c : Bytes} {names ns ms : List Bytes}
  {e : Entry} {f : Found} {fuel n m : Nat} {b absolute : Bool} {s : Spot}

/-- At each place stands one entry, under a name that a file or directory can have and in a
directory; and relative paths start in a directory. -/
structure Sound (d : Disk) : Prop where
  once : (d.entries.map (·.1)).Nodup
  ordinary : ∀ x ∈ d.entries, ∀ c ∈ x.1, Ordinary c
  tree : d.IsTree
  cwd : ∃ m, d.get? d.cwd = some (.dir m)

theorem Sound.grounded (h : d.Sound) : d.Grounded := ⟨h.tree, h.cwd⟩

theorem Sound.base (h : d.Sound) (absolute : Bool) :
    ∃ m, d.get? (d.base absolute) = some (.dir m) := h.grounded.base absolute

theorem Sound.ordinary_of_get? (h : d.Sound) (hsome : d.get? (place ++ [c]) ≠ none) : Ordinary c := by
  obtain ⟨e, he⟩ := Option.ne_none_iff_exists'.1 hsome
  have hmem := mem_entries_of_get? (by simp) he
  exact h.ordinary _ hmem c (List.mem_append_right place List.mem_cons_self)

theorem Sound.get?_of_mem (h : d.Sound) (hne : q ≠ []) (hmem : (q, e) ∈ d.entries) :
    d.get? q = some e := by
  cases hfind : d.entries.find? fun x => x.1 == q with
  | none =>
    rw [List.find?_eq_none] at hfind
    exact absurd (beq_self_eq_true q) (hfind _ hmem)
  | some x =>
    have hkey : x.1 = q := by simpa using List.find?_some hfind
    have heq : x = (q, e) :=
      List.inj_on_of_nodup_map h.once (List.mem_of_find?_eq_some hfind) hmem hkey
    rw [get?_of_ne_nil hne, hfind, heq]
    rfl

/-- The children of a directory are the entries under one more name. -/
theorem Sound.mem_children_iff (h : d.Sound) :
    (c, e) ∈ d.children place ↔ d.get? (place ++ [c]) = some e := by
  rw [children, List.mem_filterMap]
  constructor
  · rintro ⟨⟨q, e'⟩, hmem, hchild⟩
    dsimp only at hchild
    split at hchild
    · rename_i name _
      split at hchild
      · rename_i hq
        cases hchild
        subst hq
        exact h.get?_of_mem (by simp) hmem
      · cases hchild
    · cases hchild
  · intro he
    refine ⟨(place ++ [c], e), mem_entries_of_get? (by simp) he, ?_⟩
    simp

/-! ## Descending -/

/-- From the directory `place`, reached by the path `here`, names lead to an entry: through
directories, and through links whose paths lead to directories. -/
inductive Descends (d : Disk) : Path → Place → List Bytes → Entry → Prop
  | child {here : Path} {place : Place} {c : Bytes} {e : Entry} :
      d.get? (place ++ [c]) = some e → Descends d here place [c] e
  | dir {here : Path} {place : Place} {c : Bytes} {ns : List Bytes} {m : Nat} {e : Entry} :
      d.get? (place ++ [c]) = some (.dir m) → Descends d (here / c) (place ++ [c]) ns e →
        Descends d here place (c :: ns) e
  | link {here : Path} {place target : Place} {c t : Bytes} {ns : List Bytes} {m : Nat} {e : Entry} :
      d.get? (place ++ [c]) = some (.link t) → d.find (here / c) = .ok (.at target (.dir m)) →
        Descends d (here / c) target ns e → Descends d here place (c :: ns) e

theorem Descends.ne_nil (h : Descends d here place ns e) : ns ≠ [] := by
  cases h with
  | child | dir | link => exact List.cons_ne_nil _ _

theorem Descends.ordinary (hd : d.Sound) (h : Descends d here place ns e) :
    ∀ c ∈ ns, Ordinary c := by
  induction h with
  | child he =>
    intro c hc
    rw [List.mem_singleton.1 hc]
    exact hd.ordinary_of_get? (ne_none_of_get? he)
  | dir he _ ih | link he _ _ ih =>
    exact List.forall_mem_cons.2 ⟨hd.ordinary_of_get? (ne_none_of_get? he), ih⟩

/-- What a walk finds can be descended to. -/
theorem descends_of_mem_walk (hd : d.Sound) (h : f ∈ d.walk fuel names here place) :
    ∃ ns e, ns.length ≤ fuel ∧ Descends d here place ns e ∧
      f = ⟨names ++ ns, here.along ns, e⟩ := by
  induction fuel generalizing names here place with
  | zero => exact absurd h List.not_mem_nil
  | succ fuel ih =>
    rw [walk, List.mem_flatMap] at h
    obtain ⟨⟨c, entry⟩, hchild, hf⟩ := h
    have he := hd.mem_children_iff.1 hchild
    have found (h : f = ⟨names ++ [c], here / c, entry⟩) : ∃ ns e, ns.length ≤ fuel + 1 ∧
        Descends d here place ns e ∧ f = ⟨names ++ ns, here.along ns, e⟩ :=
      ⟨[c], entry, Nat.succ_le_succ (Nat.zero_le fuel), .child he, h⟩
    cases entry with
    | file x s => exact found (List.mem_singleton.1 hf)
    | dir m =>
      rcases List.mem_cons.1 hf with hf | hf
      · exact found hf
      · obtain ⟨ns, e, hlength, hdescends, rfl⟩ := ih hf
        refine ⟨c :: ns, e, Nat.succ_le_succ hlength, .dir he hdescends, ?_⟩
        rw [Path.along_cons, List.append_assoc, List.singleton_append]
    | link t =>
      dsimp only at hf
      split at hf
      · rename_i target m hfind
        rcases List.mem_cons.1 hf with hf | hf
        · exact found hf
        · obtain ⟨ns, e, hlength, hdescends, rfl⟩ := ih hf
          refine ⟨c :: ns, e, Nat.succ_le_succ hlength, .link he hfind hdescends, ?_⟩
          rw [Path.along_cons, List.append_assoc, List.singleton_append]
      · exact found (List.mem_singleton.1 hf)

/-- A walk that goes on long enough finds what it can descend to. -/
theorem Descends.mem_walk (h : Descends d here place ns e) (hd : d.Sound) (hlength : ns.length ≤ fuel)
    (names : List Bytes) : ⟨names ++ ns, here.along ns, e⟩ ∈ d.walk fuel names here place := by
  induction h generalizing names fuel with
  | @child _ _ c e he =>
    obtain ⟨fuel, rfl⟩ := Nat.exists_eq_add_one.2 (Nat.lt_of_lt_of_le (Nat.succ_pos _) hlength)
    rw [walk, List.mem_flatMap]
    refine ⟨(c, e), hd.mem_children_iff.2 he, ?_⟩
    cases e with
    | file | dir => exact List.mem_cons_self
    | link t =>
      dsimp only
      split <;> exact List.mem_cons_self
  | @dir _ _ c ns m e he _ ih =>
    obtain ⟨fuel, rfl⟩ := Nat.exists_eq_add_one.2 (Nat.lt_of_lt_of_le (Nat.succ_pos _) hlength)
    rw [walk, List.mem_flatMap]
    refine ⟨(c, .dir m), hd.mem_children_iff.2 he, List.mem_cons_of_mem _ ?_⟩
    have hrest := ih (Nat.le_of_succ_le_succ hlength) (names ++ [c])
    rwa [List.append_assoc, List.singleton_append, ← Path.along_cons] at hrest
  | @link _ _ target c t ns m e he hfind _ ih =>
    obtain ⟨fuel, rfl⟩ := Nat.exists_eq_add_one.2 (Nat.lt_of_lt_of_le (Nat.succ_pos _) hlength)
    rw [walk, List.mem_flatMap]
    refine ⟨(c, .link t), hd.mem_children_iff.2 he, ?_⟩
    dsimp only
    rw [hfind]
    have hrest := ih (Nat.le_of_succ_le_succ hlength) (names ++ [c])
    rw [List.append_assoc, List.singleton_append, ← Path.along_cons] at hrest
    exact List.mem_cons_of_mem _ hrest

/-- A walk finds what it can descend to. -/
theorem mem_walk_iff (hd : d.Sound) : f ∈ d.walk fuel names here place ↔
    ∃ ns e, ns.length ≤ fuel ∧ Descends d here place ns e ∧
      f = ⟨names ++ ns, here.along ns, e⟩ := by
  refine ⟨descends_of_mem_walk hd, ?_⟩
  rintro ⟨ns, e, hlength, hdescends, rfl⟩
  exact hdescends.mem_walk hd hlength names

/-! ## Looking up -/

theorem locate_of_reads (hp : Reads absolute ns path) (hne : path.text ≠ [])
    (hshort : path.text.length ≤ maxPath) :
    d.locate b path.text = d.follow b maxLinks (d.base absolute) ns := by
  have hroute : route path.text = ns := by
    have hends : (Path.mk path.text).endsInSlash = false := hp.endsInSlash_eq
    rw [route, hends]
    exact (List.append_nil _).trans hp.names_eq
  have horigin : origin d.cwd path.text = d.base absolute := by
    rw [origin, show (Path.mk path.text).isAbsolute = absolute from hp.isAbsolute_eq, base]
  rw [locate, List.isEmpty_eq_false_iff.2 hne, if_neg (by decide), if_neg (Nat.not_lt.2 hshort),
    hroute, horigin]

theorem find_of_reads (hp : Reads absolute ns path) (hne : path.text ≠ [])
    (hshort : path.text.length ≤ maxPath) :
    d.find path = d.follow true maxLinks (d.base absolute) ns := by
  rw [find_of_no_nul hp.no_nul, locate_of_reads hp hne hshort]

theorem short_of_find (hnul : 0 ∉ path.text) (h : d.find path = .ok s) :
    path.text.length ≤ maxPath := by
  rw [find_of_no_nul hnul, locate] at h
  split at h
  · cases h
  split at h
  · cases h
  · exact Nat.not_lt.1 ‹_›

/-- A name in a directory that a path leads to, whatever links there are on the way. -/
theorem aims_of_follow (hp : Reads absolute (ns ++ [c]) path) (hshort : path.text.length ≤ maxPath)
    (hns : d.follow true maxLinks (d.base absolute) ns = .ok (.at parent (.dir m))) (hc : Named c)
    (hlink : ∀ t, d.get? (parent ++ [c]) ≠ some (.link t)) : Aims d path parent c := by
  refine ⟨hc, ⟨m, spot_of_follow hns⟩, hlink, ⟨absolute, ns, hp⟩, hshort, fun b => ?_⟩
  obtain ⟨k, hk⟩ := follow_append hns (List.cons_ne_nil c []) b
  exact ⟨k, (locate_of_reads hp (hp.text_ne_nil (by simp)) hshort).trans hk⟩

/-- One more name behind the path of a directory is looked up from that directory. -/
theorem Sound.find_join (hd : d.Sound) (hfind : d.find here = .ok (.at place (.dir m)))
    (hnul : 0 ∉ here.text) (hc : Proper c) (hshort : (here / c).text.length ≤ maxPath) :
    ∃ k, d.find (here / c) = d.follow true k place [c] := by
  have hnames := follow_names_of_find hd.tree (hd.base _) hnul hfind
  have hreads : Reads here.isAbsolute (here.names ++ [c]) (here / c) :=
    Path.reads_along hnul (fun n hn => List.mem_singleton.1 hn ▸ hc) (List.cons_ne_nil c [])
  obtain ⟨k, hk⟩ := follow_append hnames (List.cons_ne_nil c []) true
  exact ⟨k, (find_of_reads hreads (Path.text_join_ne_nil (q := ⟨c⟩) here hc.ne_nil) hshort).trans hk⟩

/-- What stands under one more name is what its path leads to, unless it is a link. -/
theorem Sound.find_child (hd : d.Sound) (hfind : d.find here = .ok (.at place (.dir m)))
    (hnul : 0 ∉ here.text) (he : d.get? (place ++ [c]) = some e) (hlink : Entry.isLink e = false)
    (hshort : (here / c).text.length ≤ maxPath) :
    d.find (here / c) = .ok (.at (place ++ [c]) e) := by
  have hc := hd.ordinary_of_get? (ne_none_of_get? he)
  obtain ⟨k, hk⟩ := hd.find_join hfind hnul hc.proper hshort
  rw [hk, follow_singleton_of_some hc.toNamed he hlink]

/-- What a walk descends to is what the path leads to, unless it is a link. -/
theorem Descends.entryAt?_eq (hd : d.Sound) (h : Descends d here place ns e)
    (hfind : d.find here = .ok (.at place (.dir m))) (hnul : 0 ∉ here.text)
    (hshort : (here.along ns).text.length ≤ maxPath) (hlink : Entry.isLink e = false) :
    d.entryAt? (here.along ns) = some e := by
  induction h generalizing m with
  | child he => exact entryAt?_of_find (hd.find_child hfind hnul he hlink hshort)
  | @dir here _ c ns _ _ he hrest ih =>
    have hc := hd.ordinary_of_get? (ne_none_of_get? he)
    have hle := Path.le_length_along (here / c) fun c hc => (hrest.ordinary hd c hc).proper
    have hmid : (here / c).text.length ≤ maxPath :=
      Nat.le_trans (Nat.le_of_add_right_le hle) hshort
    exact ih (hd.find_child hfind hnul he rfl hmid) (Path.no_nul_join hnul hc.proper) hshort hlink
  | link he hmid hrest ih =>
    have hc := hd.ordinary_of_get? (ne_none_of_get? he)
    exact ih hmid (Path.no_nul_join hnul hc.proper) hshort hlink

/-- A path whose names lead to a directory leads there, whether or not a slash follows them. -/
theorem find_of_follow_names (hnul : 0 ∉ path.text) (hne : path.text ≠ [])
    (hshort : path.text.length ≤ maxPath)
    (h : d.follow true maxLinks (d.base path.isAbsolute) path.names = .ok (.at q (.dir m))) :
    d.find path = .ok (.at q (.dir m)) := by
  have hlocate : d.locate true path.text = d.follow true maxLinks (d.base path.isAbsolute)
      (path.names ++ if path.endsInSlash then [Path.dot] else []) := by
    rw [locate, List.isEmpty_eq_false_iff.2 hne, if_neg (by decide), if_neg (Nat.not_lt.2 hshort)]
    rfl
  rw [find_of_no_nul hnul, hlocate]
  cases path.endsInSlash with
  | false => rwa [if_neg (by decide), List.append_nil]
  | true =>
    have hq : d.get? q = some (.dir m) := spot_of_follow h
    obtain ⟨k, hk⟩ := follow_append h (List.cons_ne_nil Path.dot []) true
    have hdot := follow_of_passes (d := d) (Passes.dot (.nil (p := q))) true k []
    rw [List.append_nil] at hdot
    rw [if_pos rfl, hk, hdot, follow, (Ends.here hq).reach_eq]

/-- Where a path along names leads, its first names lead to directories. -/
theorem Sound.exists_find_of_along (hd : d.Sound) (hnul : 0 ∉ here.text) (hne : here.text ≠ [])
    (ns : List Bytes) (hns : ∀ c ∈ ns, Proper c) (hms : ∀ c ∈ ms, Proper c) (hmore : ms ≠ [])
    (h : d.find (here.along (ns ++ ms)) = .ok s) :
    ∃ q m, d.find (here.along ns) = .ok (.at q (.dir m)) := by
  have hall : ∀ c ∈ ns ++ ms, Proper c := List.forall_mem_append.2 ⟨hns, hms⟩
  have hreads := Path.reads_along hnul hall (List.append_ne_nil_of_right_ne_nil ns hmore)
  have hshort := short_of_find hreads.no_nul h
  have hfollow := follow_of_find hreads h
  rw [← List.append_assoc] at hfollow
  obtain ⟨q, m, -, hnames, -⟩ :=
    follow_of_follow_append hd.tree (hd.base here.isAbsolute) hfollow hmore
  have hle := Path.le_length_along (here.along ns) hms
  have hle' := Path.le_length_along here hns
  rw [← Path.along_append] at hle
  refine ⟨q, m, find_of_follow_names (Path.no_nul_along hnul hns) ?_ ?_ ?_⟩
  · have hpos := List.length_pos_iff.2 hne
    exact List.length_pos_iff.1 (by omega)
  · omega
  · have hsegments := fun c hc => (hns c hc).segment
    rwa [Path.isAbsolute_along here hsegments, Path.names_along here hsegments]

/-- Where a path along names leads, a walk descends along the names; and it comes to what the path
leads to, or to a link. -/
theorem Sound.exists_descends (hd : d.Sound) (hfind : d.find here = .ok (.at place (.dir m)))
    (hnul : 0 ∉ here.text) (hns : ∀ c ∈ ns, Proper c) (hne : ns ≠ [])
    (h : d.find (here.along ns) = .ok (.at q e)) :
    ∃ e', Descends d here place ns e' ∧ (Entry.isLink e' = false → e' = e) := by
  have htext := text_ne_nil_of_find hnul hfind
  induction ns generalizing here place m with
  | nil => exact absurd rfl hne
  | cons c ns ih =>
    have hc := hns c List.mem_cons_self
    have hrest := fun c' hc' => hns c' (List.mem_cons_of_mem c hc')
    have hnul' := Path.no_nul_join hnul hc
    have htext' := Path.text_join_ne_nil (q := ⟨c⟩) here hc.ne_nil
    rw [Path.along_cons] at h
    -- What stands under the first name: its path leads somewhere, if only to a directory.
    have first {spot : Spot} (hspot : d.find (here / c) = .ok spot) {q : Place} {e : Entry}
        (hat : spot = .at q e) : ∃ e', d.get? (place ++ [c]) = some e' ∧
          (Entry.isLink e' = false → q = place ++ [c] ∧ e' = e) := by
      subst hat
      obtain ⟨k, hk⟩ := hd.find_join hfind hnul hc (short_of_find hnul' hspot)
      rw [hk] at hspot
      obtain ⟨e', he'⟩ :=
        Option.ne_none_iff_exists'.1 (get?_of_follow_cons hc.ne_dot hc.ne_dotDot hspot)
      refine ⟨e', he', fun hlink => ?_⟩
      have hord := hd.ordinary_of_get? (ne_none_of_get? he')
      rw [follow_singleton_of_some hord.toNamed he' hlink] at hspot
      cases hspot
      exact ⟨rfl, rfl⟩
    by_cases hnil : ns = []
    · subst hnil
      obtain ⟨e', he', hsame⟩ := first h rfl
      exact ⟨e', .child he', fun hlink => (hsame hlink).2⟩
    · obtain ⟨q', m', hmid⟩ :=
        hd.exists_find_of_along hnul' htext' [] (List.forall_mem_nil Proper) hrest hnil h
      obtain ⟨e₁, he₁, hsame⟩ := first hmid rfl
      obtain ⟨e', hdescends, hend⟩ := ih hmid hnul' hrest hnil h htext'
      cases e₁ with
      | link t => exact ⟨e', .link he₁ hmid hdescends, hend⟩
      | file | dir =>
        obtain ⟨rfl, hdir⟩ := hsame rfl
        rw [hdir] at he₁
        exact ⟨e', .dir he₁ hdescends, hend⟩

/-! ## What is found -/

theorem find_of_mem_below (h : f ∈ d.below root) :
    ∃ place m, d.find root = .ok (.at place (.dir m)) ∧
      f ∈ d.walk (maxPath + 1) [] root place := by
  rw [below] at h
  split at h
  · rename_i place m hfind
    exact ⟨place, m, hfind, h⟩
  · cases h

theorem Sound.mem_below_of_descends (hd : d.Sound) (hfind : d.find root = .ok (.at place (.dir m)))
    (hlength : ns.length ≤ maxPath + 1) (h : Descends d root place ns e) :
    ⟨ns, root.along ns, e⟩ ∈ d.below root := by
  rw [below, hfind]
  exact (mem_walk_iff hd).2 ⟨ns, e, hlength, h, rfl⟩

/-- What is found stands under names that its path ends in. -/
theorem Sound.along_of_mem_below (hd : d.Sound) (h : f ∈ d.below root) :
    f.names ≠ [] ∧ (∀ c ∈ f.names, Ordinary c) ∧ f.path = root.along f.names := by
  obtain ⟨place, m, -, hwalk⟩ := find_of_mem_below h
  obtain ⟨ns, e, -, hdescends, rfl⟩ := (mem_walk_iff hd).1 hwalk
  exact ⟨hdescends.ne_nil, hdescends.ordinary hd, rfl⟩

/-- What is found is what its path leads to, unless it is a link or its path is too long. -/
theorem Sound.entryAt?_of_mem_below (hd : d.Sound) (hnul : 0 ∉ root.text) (h : f ∈ d.below root)
    (hshort : f.path.text.length ≤ maxPath) (hlink : Entry.isLink f.entry = false) :
    d.entryAt? f.path = some f.entry := by
  obtain ⟨place, m, hfind, hwalk⟩ := find_of_mem_below h
  obtain ⟨ns, e, -, hdescends, rfl⟩ := (mem_walk_iff hd).1 hwalk
  exact hdescends.entryAt?_eq hd hfind hnul hshort hlink

theorem Sound.isFile_eq (hd : d.Sound) (hnul : 0 ∉ root.text) (h : f ∈ d.below root)
    (hshort : f.path.text.length ≤ maxPath) : f.isFile d = d.isFile f.path := by
  have hentry := hd.entryAt?_of_mem_below hnul h hshort
  rw [Found.isFile]
  cases hkind : f.entry with
  | link t => rfl
  | file | dir =>
    rw [hkind] at hentry
    rw [isFile, hentry rfl]

theorem Sound.isDirectory_eq (hd : d.Sound) (hnul : 0 ∉ root.text) (h : f ∈ d.below root)
    (hshort : f.path.text.length ≤ maxPath) : f.isDirectory d = d.isDirectory f.path := by
  have hentry := hd.entryAt?_of_mem_below hnul h hshort
  rw [Found.isDirectory]
  cases hkind : f.entry with
  | link t => rfl
  | file | dir =>
    rw [hkind] at hentry
    rw [isDirectory, hentry rfl]

/-- What is found and is no directory is a file, provided that its path leads anywhere. -/
theorem Sound.isFile_of_not_isDirectory (hd : d.Sound) (hnul : 0 ∉ root.text)
    (h : f ∈ d.below root) (hdir : f.isDirectory d = false) (hpresent : d.isPresent f.path = true) :
    d.isFile f.path = true := by
  obtain ⟨e, he⟩ := Option.isSome_iff_exists.1 hpresent
  obtain ⟨q, hfind⟩ := find_of_entryAt? he
  obtain ⟨hne, hord, hpath⟩ := hd.along_of_mem_below h
  have hreads := Path.reads_along hnul (fun c hc => (hord c hc).proper) hne
  rw [← hpath] at hreads
  rw [hd.isDirectory_eq hnul h (short_of_find hreads.no_nul hfind), isDirectory, he] at hdir
  have hlink := not_link_of_follow hd.tree (hd.base _) (follow_of_find hreads hfind)
  rw [isFile, he]
  cases e with
  | file => rfl
  | dir => cases hdir
  | link => cases hlink

/-- Whatever a path behind a directory leads to is found below the directory. -/
theorem Sound.exists_mem_below (hd : d.Sound) (hnul : 0 ∉ root.text) (htext : root.text ≠ [])
    (hns : ∀ c ∈ ns, Proper c) (hne : ns ≠ []) (h : d.find (root.along ns) = .ok (.at q e)) :
    ∃ f ∈ d.below root, f.names = ns ∧ f.path = root.along ns := by
  obtain ⟨place, m, hfind⟩ :=
    hd.exists_find_of_along hnul htext [] (List.forall_mem_nil Proper) hns hne h
  obtain ⟨e', hdescends, -⟩ := hd.exists_descends hfind hnul hns hne h
  have hle := Path.le_length_along root hns
  have hshort := short_of_find (Path.no_nul_along hnul hns) h
  exact ⟨⟨ns, root.along ns, e'⟩, hd.mem_below_of_descends hfind (by omega) hdescends, rfl, rfl⟩

end FileCourier.Disk
