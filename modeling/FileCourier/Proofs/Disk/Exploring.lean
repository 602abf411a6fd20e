import FileCourier.Proofs.Disk.Standing

/-!
# How the finds of a walk hang together

Each find of a walk has names of its own (`Sound.nodup_walk`). What is above a find is a directory that
is found too (`Sound.exists_above`). A directory below which nothing is found is empty, if its path can
be looked up (`Sound.isEmptyDirectory_of_last`).
-/

namespace FileCourier.Disk

open FileCourier.Path (Ordinary)

variable {d : Disk} {here root : Path} {place : Place} {c : Bytes} {names ns ms : List Bytes}
  {e e' : Entry} {f g : Found} {fuel m : Nat}

/-! ## Names -/

/-- The name of a place in a directory. -/
def nameIn? (place q : Place) : Option Bytes :=
  q.getLast?.bind fun name => if q = place ++ [name] then some name else none

theorem nameIn?_eq_some_iff {q : Place} : nameIn? place q = some c ↔ q = place ++ [c] := by
  rw [nameIn?, Option.bind_eq_some_iff]
  constructor
  · rintro ⟨name, -, hname⟩
    split at hname
    · cases hname
      assumption
    · cases hname
  · rintro rfl
    exact ⟨c, List.getLast?_concat, if_pos rfl⟩

theorem map_fst_children (d : Disk) (place : Place) :
    (d.children place).map (·.1) = (d.entries.map (·.1)).filterMap (nameIn? place) := by
  rw [children, List.map_filterMap, List.filterMap_map]
  apply List.filterMap_congr
  intro x _
  rw [Function.comp_apply, nameIn?]
  cases x.1.getLast? with
  | none => rfl
  | some name =>
    dsimp only [Option.bind_some]
    split <;> rfl

theorem Sound.nodup_children (hd : d.Sound) (place : Place) :
    ((d.children place).map (·.1)).Nodup := by
  rw [map_fst_children]
  apply hd.once.filterMap
  intro q q' c hq hq'
  rw [nameIn?_eq_some_iff.1 hq, nameIn?_eq_some_iff.1 hq']

/-- What a walk finds behind a child. -/
def behind (d : Disk) (fuel : Nat) (names : List Bytes) (here : Path) (place : Place)
    (x : Bytes × Entry) : List Found :=
  match x.2 with
  | .file _ _ => []
  | .dir _ => d.walk fuel (names ++ [x.1]) (here / x.1) (place ++ [x.1])
  | .link _ =>
    match d.find (here / x.1) with
    | .ok (.at target (.dir _)) => d.walk fuel (names ++ [x.1]) (here / x.1) target
    | _ => []

/-- A walk finds each child, and what is behind it. -/
theorem walk_succ (d : Disk) (fuel : Nat) (names : List Bytes) (here : Path) (place : Place) :
    d.walk (fuel + 1) names here place = (d.children place).flatMap fun x =>
      ⟨names ++ [x.1], here / x.1, x.2⟩ :: d.behind fuel names here place x := by
  rw [walk]
  refine congrArg (fun f => (d.children place).flatMap f) (funext ?_)
  rintro ⟨c, e⟩
  cases e with
  | file | dir => rfl
  | link t =>
    dsimp only [behind]
    cases d.find (here / c) with
    | error => rfl
    | ok spot =>
      cases spot with
      | free => rfl
      | «at» target e => cases e <;> rfl

/-- Behind a child is nothing, or what a walk from there finds. -/
theorem behind_cases (d : Disk) (fuel : Nat) (names : List Bytes) (here : Path) (place : Place)
    (x : Bytes × Entry) : d.behind fuel names here place x = [] ∨
      ∃ target, d.behind fuel names here place x = d.walk fuel (names ++ [x.1]) (here / x.1) target := by
  rw [behind]
  split
  · exact .inl rfl
  · exact .inr ⟨_, rfl⟩
  · split
    · exact .inr ⟨_, rfl⟩
    · exact .inl rfl

/-- What is behind a child has longer names. -/
theorem Sound.longer_of_mem_behind (hd : d.Sound) {x : Bytes × Entry}
    (hf : f ∈ d.behind fuel names here place x) : ∃ ns, ns ≠ [] ∧ f.names = names ++ [x.1] ++ ns := by
  rcases d.behind_cases fuel names here place x with hnil | ⟨target, heq⟩
  · rw [hnil] at hf
    cases hf
  · rw [heq] at hf
    obtain ⟨ns, e, -, hdescends, rfl⟩ := descends_of_mem_walk hd hf
    exact ⟨ns, hdescends.ne_nil, rfl⟩

/-- Each find has names of its own. -/
theorem Sound.nodup_walk (hd : d.Sound) (fuel : Nat) (names : List Bytes) (here : Path)
    (place : Place) : ((d.walk fuel names here place).map (·.names)).Nodup := by
  induction fuel generalizing names here place with
  | zero => exact List.nodup_nil
  | succ fuel ih =>
    rw [walk_succ, List.map_flatMap, List.nodup_flatMap]
    refine ⟨fun x _ => List.nodup_cons.2 ⟨fun hmem => ?_, ?_⟩, ?_⟩
    · obtain ⟨f, hf, hnames⟩ := List.mem_map.1 hmem
      obtain ⟨ns, hne, hlonger⟩ := hd.longer_of_mem_behind hf
      exact hne (by simpa [hlonger] using hnames)
    · rcases d.behind_cases fuel names here place x with hnil | ⟨target, heq⟩
      · rw [hnil]
        exact List.nodup_nil
      · rw [heq]
        exact ih _ _ _
    · -- The names behind different children differ in the name of the child.
      have first {x : Bytes × Entry} {ns : List Bytes} (hns : ns ∈ (⟨names ++ [x.1], here / x.1, x.2⟩ ::
          d.behind fuel names here place x : List Found).map (·.names)) : names ++ [x.1] <+: ns := by
        obtain ⟨f, hf, rfl⟩ := List.mem_map.1 hns
        rcases List.mem_cons.1 hf with rfl | hf
        · exact List.prefix_refl _
        · obtain ⟨ms, -, hlonger⟩ := hd.longer_of_mem_behind hf
          exact hlonger ▸ List.prefix_append _ ms
      refine (List.pairwise_map.1 (hd.nodup_children place)).imp fun hne ns hns hns' => hne ?_
      have heq := (List.prefix_of_prefix_length_le (first hns) (first hns') (by simp)).eq_of_length
        (by simp)
      simpa using heq

theorem Sound.nodup_below (hd : d.Sound) (root : Path) : ((d.below root).map (·.names)).Nodup := by
  rw [below]
  split
  · exact hd.nodup_walk _ _ _ _
  · exact List.nodup_nil

/-- A find is known by its names. -/
theorem Sound.eq_of_names (hd : d.Sound) (hf : f ∈ d.below root) (hg : g ∈ d.below root)
    (h : f.names = g.names) : f = g :=
  List.inj_on_of_nodup_map (hd.nodup_below root) hf hg h

/-! ## Above and below -/

/-- What stands above a find is a directory, or a link to one, and can be descended to as well. -/
theorem Descends.exists_above (h : Descends d here place (ns ++ ms) e) (hns : ns ≠ []) (hms : ms ≠ []) :
    ∃ e', Descends d here place ns e' ∧
      ∀ names, Found.isDirectory d ⟨names, here.along ns, e'⟩ = true := by
  induction ns generalizing here place with
  | nil => exact absurd rfl hns
  | cons c ns ih =>
    rw [List.cons_append] at h
    by_cases hnil : ns = []
    · subst hnil
      cases h with
      | child => exact absurd rfl hms
      | dir he => exact ⟨_, .child he, fun _ => rfl⟩
      | link he hfind =>
        exact ⟨_, .child he, fun _ => isDirectory_of_find hfind⟩
    · generalize htail : ns ++ ms = tail at h
      cases h with
      | child => exact absurd (List.append_eq_nil_iff.1 htail).1 hnil
      | dir he hrest =>
        obtain ⟨e', habove, hdir⟩ := ih (htail ▸ hrest) hnil
        exact ⟨e', .dir he habove, hdir⟩
      | link he hfind hrest =>
        obtain ⟨e', habove, hdir⟩ := ih (htail ▸ hrest) hnil
        exact ⟨e', .link he hfind habove, hdir⟩

/-- A directory that is found is where its path leads, if that is not too long, and what stands in it
can be descended to. -/
theorem Descends.exists_find (hd : d.Sound) (h : Descends d here place ns e)
    (hfind : d.find here = .ok (.at place (.dir m))) (hnul : 0 ∉ here.text)
    (hshort : (here.along ns).text.length ≤ maxPath)
    (hdir : Found.isDirectory d ⟨names, here.along ns, e⟩ = true) :
    ∃ q k, d.find (here.along ns) = .ok (.at q (.dir k)) ∧
      ∀ c e', d.get? (q ++ [c]) = some e' → Descends d here place (ns ++ [c]) e' := by
  induction h generalizing m with
  | @child here place c e he =>
    cases e with
    | file => cases hdir
    | dir k =>
      exact ⟨_, k, hd.find_child hfind hnul he rfl hshort, fun _ _ he' => .dir he (.child he')⟩
    | link t =>
      obtain ⟨q, k, hlink⟩ : ∃ q k, d.find (here / c) = .ok (.at q (.dir k)) := find_of_isDirectory hdir
      exact ⟨q, k, hlink, fun _ _ he' => .link he hlink (.child he')⟩
  | @dir here place c ns k e he hrest ih =>
    have hc := hd.ordinary_of_get? (ne_none_of_get? he)
    have hle := Path.le_length_along (here / c) fun c hc => (hrest.ordinary hd c hc).proper
    have hmid : (here / c).text.length ≤ maxPath :=
      Nat.le_trans (Nat.le_of_add_right_le hle) hshort
    obtain ⟨q, k', hend, hbelow⟩ := ih (hd.find_child hfind hnul he rfl hmid)
      (Path.no_nul_join hnul hc.proper) hshort hdir
    exact ⟨q, k', hend, fun c' e' he' => .dir he (hbelow c' e' he')⟩
  | @link here place target c t ns k e he hmid hrest ih =>
    have hc := hd.ordinary_of_get? (ne_none_of_get? he)
    obtain ⟨q, k', hend, hbelow⟩ := ih hmid (Path.no_nul_join hnul hc.proper) hshort hdir
    exact ⟨q, k', hend, fun c' e' he' => .link he hmid (hbelow c' e' he')⟩

theorem Sound.length_names_le (hd : d.Sound) (hf : f ∈ d.below root) :
    f.names.length ≤ maxPath + 1 := by
  obtain ⟨place, m, -, hwalk⟩ := find_of_mem_below hf
  obtain ⟨ns, e, hlength, -, rfl⟩ := descends_of_mem_walk hd hwalk
  exact hlength

/-- What is above a find is a directory that is found too. -/
theorem Sound.exists_above (hd : d.Sound) (hf : f ∈ d.below root) (hnames : f.names = ns ++ ms)
    (hns : ns ≠ []) (hms : ms ≠ []) :
    ∃ g ∈ d.below root, g.isDirectory d = true ∧ g.names = ns := by
  have hlength := hd.length_names_le hf
  obtain ⟨place, m, hfind, hwalk⟩ := find_of_mem_below hf
  obtain ⟨all, e, -, hdescends, rfl⟩ := descends_of_mem_walk hd hwalk
  obtain rfl : all = ns ++ ms := hnames
  obtain ⟨e', habove, hdir⟩ := hdescends.exists_above hns hms
  rw [List.nil_append, List.length_append] at hlength
  exact ⟨_, hd.mem_below_of_descends hfind (by omega) habove, hdir _, rfl⟩

/-- A directory below which nothing is found has no entries, if its path can be looked up. -/
theorem Sound.isEmptyDirectory_of_last (hd : d.Sound) (hnul : 0 ∉ root.text) (hf : f ∈ d.below root)
    (hdir : f.isDirectory d = true) (hshort : f.path.text.length ≤ maxPath)
    (hlast : ∀ g ∈ d.below root, f.names <+: g.names → g.names = f.names) :
    d.isEmptyDirectory f.path = true := by
  obtain ⟨place, m, hfind, hwalk⟩ := find_of_mem_below hf
  obtain ⟨ns, e, -, hdescends, rfl⟩ := descends_of_mem_walk hd hwalk
  obtain ⟨q, k, hend, hbelow⟩ := hdescends.exists_find hd hfind hnul hshort hdir
  have hle := Path.le_length_along root fun c hc => (hdescends.ordinary hd c hc).proper
  have hpos := List.length_pos_iff.2 (text_ne_nil_of_find hnul hfind)
  dsimp only at hshort
  have hbare : d.children q = [] := hd.children_eq_nil_iff.2 fun c => by
    cases he : d.get? (q ++ [c]) with
    | none => rfl
    | some e' =>
      have hlength : (ns ++ [c]).length ≤ maxPath + 1 := by
        rw [List.length_append, List.length_singleton]
        omega
      have hmem := hd.mem_below_of_descends hfind hlength (hbelow c e' he)
      have hsame := hlast _ hmem (List.prefix_append ns [c])
      exact absurd hsame (by simp)
  rw [isEmptyDirectory, hend]
  exact List.isEmpty_iff.2 hbare

/-- A directory is empty exactly if nothing is found below it. -/
theorem Sound.isEmptyDirectory_iff (hd : d.Sound) (hroot : d.isDirectory root = true) :
    d.isEmptyDirectory root = true ↔ d.below root = [] := by
  obtain ⟨place, m, hfind⟩ := find_of_isDirectory hroot
  have hwalk : d.below root = d.walk (maxPath + 1) [] root place := by rw [below, hfind]
  rw [isEmptyDirectory, hfind]
  constructor
  · intro hempty
    rw [hwalk, walk, List.isEmpty_iff.1 hempty, List.flatMap_nil]
  · intro hnil
    refine List.isEmpty_iff.2 (List.eq_nil_iff_forall_not_mem.2 ?_)
    rintro ⟨c, e⟩ hmem
    have hchild : Descends d root place [c] e := .child (hd.mem_children_iff.1 hmem)
    have hone : [c].length ≤ maxPath + 1 := Nat.le_add_left 1 maxPath
    have hfound := hd.mem_below_of_descends hfind hone hchild
    rw [hnil] at hfound
    cases hfound

end FileCourier.Disk
