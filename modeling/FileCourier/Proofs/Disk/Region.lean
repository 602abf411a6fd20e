import FileCourier.Proofs.Disk.Lookup
import FileCourier.Proofs.Path.Reading

/-!
# A region of directories and files

A region is all that stands at and below a directory, without links, while the way to that directory
leads over ground that the region is no part of (`Region`). A path of ordinary names leads to its last
name in a directory of the region (`Points.aims`), so it is known what each operation does with it
(`Aims`); and making, replacing and removing entries in a region leaves it one.
-/

namespace FileCourier.Disk

open FileCourier.Path (Ordinary Reads Spells)

variable {ground d : Disk} {absolute b : Bool} {root p q : Place} {path : Path}
  {names ns : List Bytes} {c : Bytes} {e : Entry} {m : Nat}

/-- At and below `root` there are only directories and files, each in a directory; and the
directories and links of the ground, none of which lies below `root`, are there. -/
structure Region (ground : Disk) (root : Place) (d : Disk) : Prop where
  keeps : Keeps ground d
  bare : ∀ {q}, root <+: q → q ≠ root → ground.get? q = none
  noLink : ∀ {q t}, root <+: q → d.get? q ≠ some (.link t)
  tree : ∀ {q c}, root <+: q → d.get? (q ++ [c]) ≠ none → ∃ m, d.get? q = some (.dir m)

/-- A directory whose surroundings do not depend on what is below it begins a region. -/
theorem region_clear (htree : d.IsTree) (hlink : ∀ q t, root <+: q → d.get? q ≠ some (.link t)) :
    Region (d.clear root) root d where
  keeps := ⟨rfl, fun h => ⟨_, get?_of_get?_clear h⟩, get?_of_get?_clear⟩
  bare := get?_clear_of_below
  noLink := hlink _ _
  tree _ := htree _ _

theorem IsTree.clear (htree : d.IsTree) (root : Place) : (d.clear root).IsTree := by
  intro p c h
  have hnot {q : Place} (hq : (d.clear root).get? q ≠ none) : ¬(root <+: q ∧ q ≠ root) :=
    fun hbelow => hq (get?_clear_of_below hbelow.1 hbelow.2)
  have hpc := hnot h
  rw [get?_clear_of_not_below hpc] at h
  obtain ⟨m, hm⟩ := htree p c h
  refine ⟨m, ?_⟩
  rwa [get?_clear_of_not_below]
  rintro ⟨hp, -⟩
  refine hpc ⟨hp.trans (List.prefix_append p [c]), fun heq => ?_⟩
  have hlength := hp.length_le
  rw [← heq, List.length_append, List.length_singleton] at hlength
  omega

/-! ## Directories in a region -/

theorem Region.passes (h : Region ground root d) (hq : root <+: q) (hns : ∀ c ∈ ns, Ordinary c)
    (hdir : d.get? (q ++ ns) = some (.dir m)) : Passes d q ns (q ++ ns) :=
  passes_of_below h.tree hq (fun c hc => (hns c hc).toNamed) hdir

/-! ## Names in a region -/

theorem follow_singleton_of_none (hc : Named c) (hdir : d.get? q = some (.dir m))
    (h : d.get? (q ++ [c]) = none) (b : Bool) (n : Nat) :
    d.follow b n q [c] = .ok (.free q c) := by
  rw [follow, (Ends.free hc h (ne_none_of_get? hdir)).reach_eq]

theorem follow_singleton_of_some (hc : Named c) (h : d.get? (q ++ [c]) = some e)
    (hlink : Entry.isLink e = false) (b : Bool) (n : Nat) :
    d.follow b n q [c] = .ok (.at (q ++ [c]) e) := by
  cases e with
  | dir m =>
    have hpass : Passes d q [c] (q ++ [c]) := .dir hc h .nil
    have hfollow := follow_of_passes hpass b n []
    rw [List.append_nil] at hfollow
    rw [hfollow, follow, (Ends.here h).reach_eq]
  | file x s => rw [follow, (Ends.file hc h).reach_eq]
  | link t => cases hlink

/-- A path that leads to the name `c` in a directory, at which there is no link. -/
structure Aims (d : Disk) (path : Path) (parent : Place) (c : Bytes) : Prop where
  named : Named c
  dir : ∃ m, d.get? parent = some (.dir m)
  noLink : ∀ t, d.get? (parent ++ [c]) ≠ some (.link t)
  spelled : ∃ absolute names, Reads absolute (names ++ [c]) path
  short : path.text.length ≤ maxPath
  leads : ∀ b, ∃ k, d.locate b path.text = d.follow b k parent [c]

namespace Aims

variable {parent : Place}

theorem getLast?_names (h : Aims d path parent c) : path.names.getLast? = some c := by
  obtain ⟨_, _, hreads⟩ := h.spelled
  rw [hreads.names_eq, List.getLast?_concat]

theorem systemText_eq (h : Aims d path parent c) : systemText path = path.text := by
  obtain ⟨_, _, hreads⟩ := h.spelled
  exact untilNul_of_no_nul hreads.no_nul

theorem endsInSlash (h : Aims d path parent c) : path.endsInSlash = false := by
  obtain ⟨_, _, hreads⟩ := h.spelled
  exact hreads.endsInSlash_eq

theorem trimEnd_eq (h : Aims d path parent c) : Path.trimEnd path.text = path.text := by
  obtain ⟨_, _, hreads⟩ := h.spelled
  exact Path.trimEnd_of_last (hreads.last (by simp))

theorem locate_free (h : Aims d path parent c) (hnone : d.get? (parent ++ [c]) = none)
    (b : Bool) : d.locate b path.text = .ok (.free parent c) := by
  obtain ⟨k, hk⟩ := h.leads b
  obtain ⟨m, hdir⟩ := h.dir
  rw [hk, follow_singleton_of_none h.named hdir hnone]

theorem locate_at (h : Aims d path parent c)
    (hsome : d.get? (parent ++ [c]) = some e) (b : Bool) :
    d.locate b path.text = .ok (.at (parent ++ [c]) e) := by
  obtain ⟨k, hk⟩ := h.leads b
  have hlink : Entry.isLink e = false := by
    cases e with
    | dir | file => rfl
    | link t => exact absurd hsome (h.noLink t)
  rw [hk, follow_singleton_of_some h.named hsome hlink]

theorem find_free (h : Aims d path parent c) (hnone : d.get? (parent ++ [c]) = none) :
    d.find path = .ok (.free parent c) := by
  rw [find, h.systemText_eq]
  exact h.locate_free hnone true

theorem find_at (h : Aims d path parent c)
    (hsome : d.get? (parent ++ [c]) = some e) : d.find path = .ok (.at (parent ++ [c]) e) := by
  rw [find, h.systemText_eq]
  exact h.locate_at hsome true

theorem entryAt?_eq (h : Aims d path parent c) :
    d.entryAt? path = d.get? (parent ++ [c]) := by
  cases hsome : d.get? (parent ++ [c]) with
  | none => rw [entryAt?, h.find_free hsome]
  | some e => rw [entryAt?, h.find_at hsome]

theorem makeDirectory_eq (h : Aims d path parent c)
    (hnone : d.get? (parent ++ [c]) = none) :
    d.makeDirectory path = .ok (d.put (parent ++ [c]) (.dir openMode)) := by
  rw [makeDirectory, h.systemText_eq, if_neg (Nat.not_lt.2 h.short), h.trimEnd_eq, ite_self,
    h.locate_free hnone]

theorem makeDirectory_taken (h : Aims d path parent c) (hsome : d.get? (parent ++ [c]) = some e) :
    d.makeDirectory path = .error .alreadyThere := by
  rw [makeDirectory, h.systemText_eq, if_neg (Nat.not_lt.2 h.short), h.trimEnd_eq, ite_self,
    h.locate_at hsome]

theorem setMode_eq (h : Aims d path parent c)
    (hdir : d.get? (parent ++ [c]) = some (.dir m)) (mode : Nat) :
    d.setMode path mode = d.put (parent ++ [c]) (.dir mode) := by
  rw [setMode, h.find_at hdir]

theorem locateName_eq (h : Aims d path parent c)
    (hsome : d.get? (parent ++ [c]) = some e) :
    d.locateName path.text = .ok (.at (parent ++ [c]) e) := by
  have hlast : (Path.mk path.text).names.getLast? = some c := h.getLast?_names
  have hc : ¬(c = Path.dot ∨ c = Path.dotDot) := not_or.2 ⟨h.named.ne_dot, h.named.ne_dotDot⟩
  rw [locateName, hlast]
  dsimp only
  rw [if_neg hc, if_neg (Nat.not_lt.2 h.short), h.trimEnd_eq, h.locate_at hsome]

theorem remove_file (h : Aims d path parent c) {x : Bool} {s : Bytes}
    (hfile : d.get? (parent ++ [c]) = some (.file x s)) :
    d.remove path = .ok (some (d.drop (parent ++ [c]))) := by
  have hends : (Path.mk path.text).endsInSlash = false := h.endsInSlash
  rw [remove, h.systemText_eq, h.locateName_eq hfile]
  dsimp only
  rw [hends]
  rfl

theorem remove_dir (h : Aims d path parent c)
    (hdir : d.get? (parent ++ [c]) = some (.dir m)) (hempty : d.children (parent ++ [c]) = []) :
    d.remove path = .ok (some (d.drop (parent ++ [c]))) := by
  rw [remove, h.systemText_eq, h.locateName_eq hdir]
  dsimp only
  rw [hempty]
  rfl

theorem emptied_eq (h : Aims d path parent c)
    (hdir : d.get? (parent ++ [c]) = some (.dir m)) :
    d.emptied path = .ok (some (d.clear (parent ++ [c]))) := by
  rw [emptied, h.systemText_eq, h.locate_at hdir]

/-- Opening for writing fails at nothing but a directory, and empties the file. -/
theorem exists_openForWriting_eq (h : Aims d path parent c)
    (hdir : ∀ m, d.get? (parent ++ [c]) ≠ some (.dir m)) :
    ∃ x, d.openForWriting path = .ok (parent ++ [c], d.put (parent ++ [c]) (.file x [])) := by
  cases hsome : d.get? (parent ++ [c]) with
  | none => exact ⟨false, by rw [openForWriting, h.find_free hsome]⟩
  | some e =>
    cases e with
    | dir m => exact absurd hsome (hdir m)
    | file x s => exact ⟨x, by rw [openForWriting, h.find_at hsome]⟩
    | link t => exact absurd hsome (h.noLink t)

theorem exists_openForWriting (h : Aims d path parent c)
    (hdir : ∀ m, d.get? (parent ++ [c]) ≠ some (.dir m)) :
    ∃ place d', d.openForWriting path = .ok (place, d') := by
  obtain ⟨x, hopen⟩ := h.exists_openForWriting_eq hdir
  exact ⟨_, _, hopen⟩

/-- What is opened is the name. -/
theorem place_of_openForWriting (h : Aims d path parent c) {place : Place} {d' : Disk}
    (hopen : d.openForWriting path = .ok (place, d')) : place = parent ++ [c] := by
  rw [openForWriting] at hopen
  cases hsome : d.get? (parent ++ [c]) with
  | none =>
    rw [h.find_free hsome] at hopen
    cases hopen
    rfl
  | some e =>
    rw [h.find_at hsome] at hopen
    cases e with
    | file => cases hopen; rfl
    | dir | link => cases hopen

end Aims

/-- A path of ordinary names that leads to the name `c` in a directory of a region. -/
structure Points (ground : Disk) (root : Place) (d : Disk) (path : Path) (parent : Place)
    (c : Bytes) : Prop where
  region : Region ground root d
  dir : ∃ m, d.get? parent = some (.dir m)
  spelled : ∃ absolute names ns, ground.Way absolute names root ∧ parent = root ++ ns ∧
    Spells absolute (names ++ ns ++ [c]) path ∧ ∀ n ∈ names ++ ns ++ [c], Ordinary n

theorem Points.inside {parent : Place} (h : Points ground root d path parent c) :
    root <+: parent := by
  obtain ⟨_, _, ns, _, rfl, _, _⟩ := h.spelled
  exact List.prefix_append root ns

theorem Points.aims {parent : Place} (h : Points ground root d path parent c) :
    Aims d path parent c := by
  have hlink := fun t => h.region.noLink (t := t) (h.inside.trans (List.prefix_append parent [c]))
  obtain ⟨absolute, names, ns, hway, rfl, hspells, hord⟩ := h.spelled
  obtain ⟨m, hdir⟩ := h.dir
  have hnul : 0 ∉ path.text := Path.no_nul_of_names (by rwa [hspells.names_eq])
  refine ⟨(hord c (by simp)).toNamed, h.dir, hlink,
    ⟨absolute, names ++ ns, hspells.isAbsolute_eq, hspells.names_eq, hspells.endsInSlash, hnul⟩,
    hspells.short, fun b => ?_⟩
  obtain ⟨q, m', hfollow, hq⟩ := hway.of_keeps h.region.keeps names [] (List.append_nil _).symm
  obtain rfl := hq rfl
  have hns : ∀ n ∈ ns, Ordinary n := fun n hn => hord n (by simp [hn])
  have hpass := h.region.passes (List.prefix_refl q) hns hdir
  have hrest : ns ++ [c] ≠ [] := List.append_ne_nil_of_right_ne_nil ns (List.cons_ne_nil c [])
  obtain ⟨k, hk⟩ := follow_append hfollow hrest b
  refine ⟨k, ?_⟩
  rw [← untilNul_of_no_nul hnul, ← systemText, locate_of_spells hspells hord (by simp),
    List.append_assoc, hk, follow_of_passes hpass]

/-! ## Changes in a region -/

theorem ne_of_below (hq : root <+: q) (hp : q ++ [c] <+: p) : p ≠ root := by
  rintro rfl
  have hlength := hq.length_le
  have hlength' := hp.length_le
  rw [List.length_append, List.length_singleton] at hlength'
  omega

/-- What changes nothing of the ground keeps it. -/
theorem Region.keeps_of_same {d' : Disk} (h : Region ground root d) (hcwd : d'.cwd = d.cwd)
    (hsame : ∀ {q}, ground.get? q ≠ none → d'.get? q = d.get? q) : Keeps ground d' where
  cwd := hcwd.trans h.keeps.cwd
  dir hp := by
    rw [hsame (ne_none_of_get? hp)]
    exact h.keeps.dir hp
  link hp := by
    rw [hsame (ne_none_of_get? hp)]
    exact h.keeps.link hp

theorem Region.ne_of_ground (h : Region ground root d) (hq : root <+: q)
    (hp : ground.get? p ≠ none) : p ≠ q ++ [c] := by
  rintro rfl
  exact hp (h.bare (hq.trans (List.prefix_append q [c])) (ne_of_below hq (List.prefix_refl _)))

/-- A directory may be made, or given other permissions. -/
theorem Region.put_dir (h : Region ground root d) (hq : root <+: q)
    (hdir : ∃ m, d.get? q = some (.dir m)) (c : Bytes) (m : Nat) :
    Region ground root (d.put (q ++ [c]) (.dir m)) where
  keeps := h.keeps_of_same rfl fun hp => get?_put_of_ne (h.ne_of_ground hq hp)
  bare := h.bare
  noLink {p t} hp hlink := by
    by_cases hpx : p = q ++ [c]
    · rw [hpx, get?_put_self (by simp)] at hlink
      cases hlink
    · rw [get?_put_of_ne hpx] at hlink
      exact h.noLink hp hlink
  tree {p c'} hp hsome := by
    by_cases hpx : p = q ++ [c]
    · exact ⟨m, by rw [hpx, get?_put_self (by simp)]⟩
    rw [get?_put_of_ne hpx]
    by_cases hchild : p ++ [c'] = q ++ [c]
    · obtain ⟨rfl, -⟩ := List.append_inj' hchild rfl
      exact hdir
    · rw [get?_put_of_ne hchild] at hsome
      exact h.tree hp hsome

/-- An entry with nothing below it may be taken away. -/
theorem Region.drop (h : Region ground root d) (hq : root <+: q)
    (hbelow : ∀ p, q ++ [c] <+: p → p ≠ q ++ [c] → d.get? p = none) :
    Region ground root (d.drop (q ++ [c])) where
  keeps := h.keeps_of_same rfl fun hp => get?_drop_of_ne (h.ne_of_ground hq hp)
  bare := h.bare
  noLink hp hlink := h.noLink hp (get?_of_get?_drop hlink (by simp))
  tree {p c'} hp hsome := by
    obtain ⟨e, he⟩ := Option.ne_none_iff_exists'.1 hsome
    have hold := get?_of_get?_drop he (by simp)
    have hpx : p ≠ q ++ [c] := by
      rintro rfl
      rw [hbelow _ (List.prefix_append _ _) (by simp)] at hold
      cases hold
    rw [get?_drop_of_ne hpx]
    exact h.tree hp (ne_none_of_get? hold)

/-- A directory may be emptied. -/
theorem Region.clear (h : Region ground root d) (hq : root <+: q) (c : Bytes) :
    Region ground root (d.clear (q ++ [c])) where
  keeps := h.keeps_of_same rfl fun hp => get?_clear_of_not_below fun hbelow =>
    hp (h.bare ((hq.trans (List.prefix_append q [c])).trans hbelow.1) (ne_of_below hq hbelow.1))
  bare := h.bare
  noLink hp hlink := h.noLink hp (get?_of_get?_clear hlink)
  tree {p c'} hp hsome := by
    obtain ⟨e, he⟩ := Option.ne_none_iff_exists'.1 hsome
    have hchild : ¬(q ++ [c] <+: p ∧ p ≠ q ++ [c]) := fun hbelow => by
      rw [get?_clear_of_below (hbelow.1.trans (List.prefix_append p [c']))
        (ne_of_below hbelow.1 (List.prefix_refl _))] at he
      cases he
    rw [get?_clear_of_not_below hchild]
    exact h.tree hp (ne_none_of_get? (get?_of_get?_clear he))

namespace Points

variable {parent : Place}

/-- Making a directory of a name, or giving it other permissions, does not change where it is. -/
theorem put_dir (h : Points ground root d path parent c) (m : Nat) :
    Points ground root (d.put (parent ++ [c]) (.dir m)) path parent c where
  region := h.region.put_dir h.inside h.dir c m
  dir := by
    rw [get?_put_of_ne (by simp)]
    exact h.dir
  spelled := h.spelled

theorem drop (h : Points ground root d path parent c)
    (hbelow : ∀ p, parent ++ [c] <+: p → p ≠ parent ++ [c] → d.get? p = none) :
    Points ground root (d.drop (parent ++ [c])) path parent c where
  region := h.region.drop h.inside hbelow
  dir := by
    rw [get?_drop_of_ne (by simp)]
    exact h.dir
  spelled := h.spelled

theorem clear (h : Points ground root d path parent c) :
    Points ground root (d.clear (parent ++ [c])) path parent c where
  region := h.region.clear h.inside c
  dir := by
    rw [get?_clear_of_not_below fun hbelow => ne_of_below (List.prefix_refl parent) hbelow.1 rfl]
    exact h.dir
  spelled := h.spelled

end Points

end FileCourier.Disk
