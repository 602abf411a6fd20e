import FileCourier.Proofs.Disk.Missing
import Mathlib.Data.List.Induction

/-!
# Directories made along names

Below a directory that is there and below which there are no links (`Rooted`), making a directory
makes one directory after the other along the names (`Rooted.makeDirectories`, `Grown`). When the
directory is missing itself, it is made first: what is made behind it is then the same as if it had
been made before (`Creates.makeDirectories_along`).
-/

namespace FileCourier.Disk

open FileCourier.Path (Ordinary Proper)

variable {d d' d₁ : Disk} {root q : Place} {ns ms : List Bytes} {c : Bytes} {e : Entry}
  {here : Path} {l : List Path} {n m : Nat}

/-! ## Below a directory that is there -/

/-- The path leads to the directory `root`, below which there are only directories and files. -/
structure Rooted (here : Path) (root : Place) (d : Disk) : Prop where
  site : Site here.isAbsolute here.names root d
  grounded : d.Grounded
  no_nul : 0 ∉ here.text
  text_ne_nil : here.text ≠ []

theorem rooted_of_find (hd : d.Grounded) (hnul : 0 ∉ here.text)
    (hfind : d.find here = .ok (.at root (.dir m)))
    (hlink : ∀ q t, root <+: q → d.get? q ≠ some (.link t)) : Rooted here root d where
  site := ⟨hd.tree, hlink _ _,
    way_of_follow hd.tree (hd.base _) (follow_names_of_find hd.tree (hd.base _) hnul hfind)⟩
  grounded := hd
  no_nul := hnul
  text_ne_nil := text_ne_nil_of_find hnul hfind

namespace Rooted

theorem behind (h : Rooted here root d) (hns : ∀ c ∈ ns, Proper c) (hne : ns ≠ []) :
    Behind here.isAbsolute here.names ns (here.along ns) :=
  ⟨Path.reads_along h.no_nul hns hne, hne, hns⟩

/-- Names behind the path are looked up from the directory. -/
theorem exists_find_eq (h : Rooted here root d) (hns : ∀ c ∈ ns, Proper c) (hne : ns ≠ [])
    (hshort : (here.along ns).text.length ≤ maxPath) :
    ∃ k, d.find (here.along ns) = d.follow true k root ns := by
  obtain ⟨m, hfollow⟩ := h.site.follow_eq
  have hle := Path.le_length_along here hns
  have hpos := List.length_pos_iff.2 hne
  have htext : (here.along ns).text ≠ [] := List.length_pos_iff.1 (by omega)
  obtain ⟨k, hk⟩ := follow_append hfollow hne true
  exact ⟨k, (find_of_reads (Path.reads_along h.no_nul hns hne) htext hshort).trans hk⟩

theorem passes (h : Rooted here root d) (hns : ∀ c ∈ ns, Ordinary c)
    (hdir : d.get? (root ++ ns) = some (.dir m)) : Passes d root ns (root ++ ns) :=
  passes_of_below (fun _ => h.site.tree _ _) (List.prefix_refl root) (fun c hc => (hns c hc).toNamed)
    hdir

/-- What stands below the directory is what the names lead to. -/
theorem find_at (h : Rooted here root d) (hns : ∀ c ∈ ns, Ordinary c) (hne : ns ≠ [])
    (hshort : (here.along ns).text.length ≤ maxPath) (he : d.get? (root ++ ns) = some e) :
    d.find (here.along ns) = .ok (.at (root ++ ns) e) := by
  obtain ⟨above, c, rfl⟩ : ∃ above c, ns = above ++ [c] :=
    ⟨_, _, (List.dropLast_concat_getLast hne).symm⟩
  obtain ⟨k, hk⟩ := h.exists_find_eq (fun c hc => (hns c hc).proper) hne hshort
  rw [← List.append_assoc] at he ⊢
  obtain ⟨m, hdir⟩ := h.site.tree _ _ (ne_none_of_get? he)
  have hpass := h.passes (fun c hc => hns c (List.mem_append_left _ hc)) hdir
  have hlink : Entry.isLink e = false := by
    cases e with
    | dir | file => rfl
    | link t =>
      refine absurd he (h.site.noLink ?_)
      rw [List.append_assoc]
      exact List.prefix_append root _
  have hc := hns c (List.mem_append_right _ List.mem_cons_self)
  rw [hk, follow_of_passes hpass, follow_singleton_of_some hc.toNamed he hlink]

/-- A name that is taken by nothing in a directory below is found free. -/
theorem find_free (h : Rooted here root d) {above : List Bytes} (hns : ∀ a ∈ above ++ [c], Ordinary a)
    (hshort : (here.along (above ++ [c])).text.length ≤ maxPath)
    (hdir : d.get? (root ++ above) = some (.dir m)) (hnone : d.get? (root ++ above ++ [c]) = none) :
    d.find (here.along (above ++ [c])) = .ok (.free (root ++ above) c) := by
  have hne : above ++ [c] ≠ [] := List.append_ne_nil_of_right_ne_nil _ (List.cons_ne_nil c [])
  obtain ⟨k, hk⟩ := h.exists_find_eq (fun c hc => (hns c hc).proper) hne hshort
  have hpass := h.passes (fun c hc => hns c (List.mem_append_left _ hc)) hdir
  have hc := hns c (List.mem_append_right _ List.mem_cons_self)
  rw [hk, follow_of_passes hpass, follow_singleton_of_none hc.toNamed hdir hnone]

/-- A directory below the directory is one as well. -/
theorem along (h : Rooted here root d) (hns : ∀ c ∈ ns, Ordinary c)
    (hdir : d.get? (root ++ ns) = some (.dir m)) : Rooted (here.along ns) (root ++ ns) d := by
  have hproper := fun c hc => (hns c hc).proper
  have hfollow : d.follow true maxLinks (d.base here.isAbsolute) (here.names ++ ns) =
      .ok (.at (root ++ ns) (.dir m)) := by
    obtain ⟨m', hroot⟩ := h.site.follow_eq
    by_cases hne : ns = []
    · subst hne
      rw [List.append_nil] at hdir ⊢
      have hm : d.get? root = some (.dir m') := spot_of_follow hroot
      rw [hroot, Option.some.inj (hm.symm.trans hdir)]
      rw [List.append_nil]
    · obtain ⟨k, hk⟩ := follow_append hroot hne true
      have hpass := follow_of_passes (h.passes hns hdir) true k []
      rw [List.append_nil] at hpass
      rw [hk, hpass, follow, (Ends.here hdir).reach_eq]
  refine ⟨⟨h.site.tree, fun {q t} hq => h.site.noLink ((List.prefix_append root ns).trans hq), ?_⟩,
    h.grounded, Path.no_nul_along h.no_nul hproper, ?_⟩
  · have hsegments := fun c hc => (hproper c hc).segment
    rw [Path.isAbsolute_along here hsegments, Path.names_along here hsegments]
    exact way_of_follow h.site.tree (h.grounded.base _) hfollow
  · have hle := Path.le_length_along here hproper
    have hpos := List.length_pos_iff.2 h.text_ne_nil
    exact List.length_pos_iff.1 (by omega)

/-- A name behind the directory that is taken by nothing. -/
theorem vacant (h : Rooted here root d) (hc : Ordinary c) (hnone : d.get? (root ++ [c]) = none) :
    Vacant (d.follow true maxLinks (d.base here.isAbsolute) (here.names ++ [c])) := by
  obtain ⟨m, hroot⟩ := h.site.follow_eq
  obtain ⟨k, hk⟩ := follow_append hroot (List.cons_ne_nil c []) true
  have hdir : d.get? root = some (.dir m) := spot_of_follow hroot
  rw [hk, follow_singleton_of_none hc.toNamed hdir hnone]
  exact .free root c

end Rooted

/-- When names behind a path are vacant, what is made of them is what is missing, and on from
there. -/
theorem makeDirectories_of_lacks (hd : d.Grounded) (hnul : 0 ∉ here.text) (htext : here.text ≠ [])
    (hns : ∀ a ∈ c :: ns, Proper a) (hshort : (here.along (c :: ns)).text.length ≤ maxPath)
    (hvacant : Vacant (d.follow true maxLinks (d.base here.isAbsolute) (here.names ++ [c])))
    (h : Lacks d n (here / c) (here / c :: l)) (hn : n ≤ here.text.length + 2)
    (hroom : l.length + (c :: ns).length ≤ maxMissing) :
    Vacant (d.find (here.along (c :: ns))) ∧
      d.makeDirectories (here.along (c :: ns)) = d.makeEach (l.reverse ++ chain here (c :: ns)) := by
  have hc := hns c List.mem_cons_self
  have hrest := fun a ha => hns a (List.mem_cons_of_mem c ha)
  have hreads := Path.reads_along hnul hns (List.cons_ne_nil c ns)
  have hle := Path.le_length_along here hns
  have hpos := List.length_pos_iff.2 htext
  have hjoin : (here / c).names = here.names ++ [c] :=
    (Path.names_join here hc.isAbsolute).trans (congrArg _ hc.names)
  have habsolute : (here / c).isAbsolute = here.isAbsolute := Path.isAbsolute_join here hc.isAbsolute
  have hlast : (here / c).text.getLast? = c.getLast? :=
    Path.getLast?_join (q := ⟨c⟩) here hc.ne_nil
  have hfind : Vacant (d.find (here.along (c :: ns))) := by
    rw [find_of_reads hreads (List.length_pos_iff.1 (by omega)) hshort, List.append_cons]
    exact vacant_follow_append hd.tree (hd.base _) hvacant ns
  have hlacks := lacks_along hd.tree (habsolute ▸ hd.base _)
    (Path.text_join_ne_nil (q := ⟨c⟩) here hc.ne_nil) (hlast ▸ hc.plain.last)
    (Path.no_nul_join hnul hc) hrest hshort (by rwa [habsolute, hjoin]) h
  have hlength : (chain (here / c) ns).length = ns.length := length_chain _ _
  rw [List.length_cons] at hle hroom
  have hmissing : d.missing ((here.along (c :: ns)).text.length + 1) maxMissing
      (here.along (c :: ns)) = .ok ((chain (here / c) ns).reverse ++ here / c :: l) := by
    refine missing_of_lacks hlacks (by omega) ?_
    rw [List.length_append, List.length_reverse, hlength, List.length_cons]
    omega
  have hempty : (here.along (c :: ns)).isEmpty = false :=
    List.isEmpty_eq_false_iff.2 (List.length_pos_iff.1 (by omega))
  refine ⟨hfind, ?_⟩
  rw [makeDirectories_of_vacant hempty hfind, hreads.endsInSlash_eq, if_neg (by decide), hmissing]
  dsimp only
  rw [List.reverse_append, List.reverse_reverse, List.reverse_cons, List.append_assoc,
    List.singleton_append, chain]

/-! ## Directories that are made -/

/-- Along the names below a place stand directories, made where nothing was; and nothing else has
changed. -/
structure Grown (root : Place) (ns : List Bytes) (d d' : Disk) : Prop where
  cwd : d'.cwd = d.cwd
  dir : ∀ {ms}, ms ≠ [] → ms <+: ns → ∃ m, d'.get? (root ++ ms) = some (.dir m)
  kept : ∀ {q}, d.get? q ≠ none ∨ ¬(∃ ms, ms ≠ [] ∧ ms <+: ns ∧ q = root ++ ms) →
    d'.get? q = d.get? q

theorem Grown.append (hfirst : Grown root ms d d₁) (hrest : Grown (root ++ ms) ns d₁ d') :
    Grown root (ms ++ ns) d d' where
  cwd := hrest.cwd.trans hfirst.cwd
  dir {y} hy hyms := by
    rcases prefix_append_cases hyms with hyms | ⟨z, hz, hzns, rfl⟩
    · obtain ⟨m, hm⟩ := hfirst.dir hy hyms
      exact ⟨m, (hrest.kept (.inl (ne_none_of_get? hm))).trans hm⟩
    · rw [← List.append_assoc]
      exact hrest.dir hz hzns
  kept {q} hq := by
    have hoff (hq : ¬∃ y, y ≠ [] ∧ y <+: ms ++ ns ∧ q = root ++ y) :
        (¬∃ y, y ≠ [] ∧ y <+: ms ∧ q = root ++ y) ∧
          ¬∃ y, y ≠ [] ∧ y <+: ns ∧ q = root ++ ms ++ y := by
      refine ⟨?_, ?_⟩
      · rintro ⟨y, hy, hyms, rfl⟩
        exact hq ⟨y, hy, hyms.trans (List.prefix_append ms ns), rfl⟩
      · rintro ⟨y, hy, hyns, rfl⟩
        refine hq ⟨ms ++ y, List.append_ne_nil_of_right_ne_nil ms hy, ?_, List.append_assoc _ _ _⟩
        exact (List.prefix_append_right_inj ms).2 hyns
    have hsame : d₁.get? q = d.get? q := hfirst.kept (hq.imp_right fun hq => (hoff hq).1)
    refine (hrest.kept ?_).trans hsame
    rw [hsame]
    exact hq.imp_right fun hq => (hoff hq).2

theorem grown_put (hnone : d.get? (root ++ [c]) = none) :
    Grown root [c] d (d.put (root ++ [c]) (.dir openMode)) where
  cwd := rfl
  dir {ms} hms hpre := by
    obtain rfl : ms = [c] := hpre.eq_of_length_le (List.length_pos_iff.2 hms)
    exact ⟨openMode, get?_put_self (by simp)⟩
  kept {q} hq := by
    refine get?_put_of_ne ?_
    rintro rfl
    rcases hq with hsome | hoff
    · exact hsome hnone
    · exact hoff ⟨[c], List.cons_ne_nil c [], List.prefix_refl _, rfl⟩

/-- A directory that is there already has directories all along its names. -/
theorem grown_of_dir (htree : d.IsTree) (hdir : d.get? (root ++ ns) = some (.dir m)) :
    Grown root ns d d where
  cwd := rfl
  dir {ms} _ hpre := by
    obtain ⟨rest, rfl⟩ := hpre
    by_cases hrest : rest = []
    · rw [hrest, List.append_nil] at hdir
      exact ⟨m, hdir⟩
    · rw [← List.append_assoc] at hdir
      exact exists_dir_of_below (fun _ => htree _ _) List.nil_prefix hrest (ne_none_of_get? hdir)
  kept _ := rfl

namespace Rooted

theorem makeDirectory (h : Rooted here root d) (hc : Ordinary c)
    (hshort : (here / c).text.length ≤ maxPath) (hnone : d.get? (root ++ [c]) = none) :
    d.makeDirectory (here / c) = .ok (d.put (root ++ [c]) (.dir openMode)) ∧
      Rooted here root (d.put (root ++ [c]) (.dir openMode)) := by
  have hbehind : Behind here.isAbsolute here.names [c] (here / c) :=
    h.behind (fun a ha => List.mem_singleton.1 ha ▸ hc.proper) (List.cons_ne_nil c [])
  have htext := Path.text_join_ne_nil (q := ⟨c⟩) here hc.ne_nil
  have htrim : Path.trimEnd (here / c).text = (here / c).text :=
    Path.trimEnd_of_last (hbehind.reads.last (by simp))
  obtain ⟨m, hroot⟩ := h.site.follow_eq
  have hdir : d.get? root = some (.dir m) := spot_of_follow hroot
  obtain ⟨k, hk⟩ := follow_append hroot (List.cons_ne_nil c []) false
  have hlocate : d.locate false (here / c).text = .ok (.free root c) := by
    rw [locate_of_reads hbehind.reads htext hshort, hk,
      follow_singleton_of_none hc.toNamed hdir hnone]
  have hmake : d.makeDirectory (here / c) = .ok (d.put (root ++ [c]) (.dir openMode)) := by
    rw [Disk.makeDirectory, systemText_of_reads hbehind.reads, if_neg (Nat.not_lt.2 hshort), htrim,
      ite_self, hlocate]
  obtain ⟨-, -, hsite⟩ := h.site.makeDirectory hbehind hmake
  exact ⟨hmake, hsite, (h.grounded.makeDirectory hmake).2, h.no_nul, h.text_ne_nil⟩

/-- From a directory that is there, directories are made along names that are free. -/
theorem makeEach_chain (h : Rooted here root d) (hns : ∀ a ∈ c :: ns, Ordinary a)
    (hshort : (here.along (c :: ns)).text.length ≤ maxPath) (hnone : d.get? (root ++ [c]) = none) :
    ∃ d', d.makeEach (chain here (c :: ns)) = (.ok (), d') ∧ Grown root (c :: ns) d d' := by
  induction ns generalizing here root d c with
  | nil =>
    obtain ⟨hmake, -⟩ := h.makeDirectory (hns c List.mem_cons_self) hshort hnone
    refine ⟨_, ?_, grown_put hnone⟩
    rw [chain, makeEach, hmake]
    rfl
  | cons a ns ih =>
    have hc := hns c List.mem_cons_self
    have hrest := fun b hb => hns b (List.mem_cons_of_mem c hb)
    have hle := Path.le_length_along (here / c) fun b hb => (hrest b hb).proper
    obtain ⟨hmake, h₁⟩ :=
      h.makeDirectory hc (Nat.le_trans (Nat.le_of_add_right_le hle) hshort) hnone
    have hchild : Rooted (here / c) (root ++ [c]) (d.put (root ++ [c]) (.dir openMode)) :=
      h₁.along (fun b hb => List.mem_singleton.1 hb ▸ hc) (get?_put_self (by simp))
    -- Nothing is below a name that is free.
    have hbelow : (d.put (root ++ [c]) (.dir openMode)).get? (root ++ [c] ++ [a]) = none := by
      rw [get?_put_of_ne (by simp)]
      exact h.site.tree.get?_below (by simp [hnone]) (List.prefix_append _ _) (by simp)
    obtain ⟨d', hmade, hgrown⟩ := ih hchild hrest hshort hbelow
    refine ⟨d', ?_, (grown_put hnone).append hgrown⟩
    rw [chain, makeEach, hmake]
    exact hmade

/-- Where only directories stand on the way, the last of them is there, or a first one is missing. -/
theorem exists_first_free (h : Rooted here root d)
    (hfile : ∀ ms, ms <+: ns → ∀ x s, d.get? (root ++ ms) ≠ some (.file x s)) :
    (∃ m, d.get? (root ++ ns) = some (.dir m)) ∨ ∃ ms c rest m, ns = ms ++ c :: rest ∧
      d.get? (root ++ ms) = some (.dir m) ∧ d.get? (root ++ ms ++ [c]) = none := by
  induction ns using List.reverseRecOn with
  | nil =>
    rw [List.append_nil]
    exact .inl h.site.dir
  | append_singleton ns c ih =>
    rcases ih fun ms hms => hfile ms (hms.trans (List.prefix_append ns [c])) with
      ⟨m, hm⟩ | ⟨ms, c', rest, m, rfl, hm, hnone⟩
    · cases he : d.get? (root ++ (ns ++ [c])) with
      | none => exact .inr ⟨ns, c, [], m, rfl, hm, by rwa [List.append_assoc]⟩
      | some e =>
        cases e with
        | dir m => exact .inl ⟨m, rfl⟩
        | file x s => exact absurd he (hfile _ (List.prefix_refl _) x s)
        | link t => exact absurd he (h.site.noLink (List.prefix_append root _))
    · exact .inr ⟨ms, c', rest ++ [c], m, by simp, hm, hnone⟩

/-- Below a directory that is there, a directory is made with all that is missing above it. -/
theorem makeDirectories (h : Rooted here root d) (hns : ∀ a ∈ ns, Ordinary a) (hne : ns ≠ [])
    (hshort : (here.along ns).text.length ≤ maxPath) (hroom : ns.length ≤ maxMissing)
    (hfile : ∀ ms, ms <+: ns → ∀ x s, d.get? (root ++ ms) ≠ some (.file x s)) :
    ∃ d', d.makeDirectories (here.along ns) = (.ok (), d') ∧ Grown root ns d d' ∧
      Rooted here root d' ∧ Within (Below root) d d' := by
  have hproper := fun a ha => (hns a ha).proper
  have hreads := Path.reads_along h.no_nul hproper hne
  obtain ⟨hsite, hwithin⟩ := h.site.makeDirectories hreads hproper
  obtain ⟨hgrows, hgrounded⟩ := h.grounded.makeDirectories (here.along ns)
  suffices hmade : ∃ d', d.makeDirectories (here.along ns) = (.ok (), d') ∧ Grown root ns d d' by
    obtain ⟨d', hmade, hgrown⟩ := hmade
    rw [hmade] at hsite hwithin hgrounded
    exact ⟨d', hmade, hgrown, ⟨hsite, hgrounded, h.no_nul, h.text_ne_nil⟩, hwithin⟩
  rcases h.exists_first_free hfile with ⟨m, hdir⟩ | ⟨ms, c, rest, m, rfl, hdir, hnone⟩
  · have hfind := h.find_at hns hne hshort hdir
    have hempty : (here.along ns).isEmpty = false :=
      List.isEmpty_eq_false_iff.2 (text_ne_nil_of_find hreads.no_nul hfind)
    refine ⟨d, ?_, grown_of_dir h.site.tree hdir⟩
    rw [Disk.makeDirectories, hempty, if_neg (by decide), hfind]
  · have hms := fun a ha => hns a (List.mem_append_left (c :: rest) ha)
    have hrest := fun a ha => hns a (List.mem_append_right ms ha)
    have hc := hrest c List.mem_cons_self
    have habove := h.along hms hdir
    rw [Path.along_append] at hshort ⊢
    obtain ⟨m', hfollow⟩ := habove.site.follow_eq
    have hle := Path.le_length_along ((here.along ms) / c) fun a ha =>
      (hrest a (List.mem_cons_of_mem c ha)).proper
    have hlacks := lacks_join_of_dir hc.proper habove.text_ne_nil habove.no_nul
      (Nat.le_trans (Nat.le_of_add_right_le hle) hshort) hfollow
    rw [List.length_append] at hroom
    obtain ⟨-, hmake⟩ := makeDirectories_of_lacks (l := []) h.grounded habove.no_nul
      habove.text_ne_nil (fun a ha => (hrest a ha).proper) hshort (habove.vacant hc hnone) hlacks
      (Nat.le_add_left _ _) (by simp only [List.length_nil]; omega)
    obtain ⟨d', hmade, hgrown⟩ := habove.makeEach_chain hrest hshort hnone
    exact ⟨d', hmake.trans hmade, (grown_of_dir h.site.tree hdir).append hgrown⟩

end Rooted

/-! ## A directory that is made first -/

/-- Nothing stands at the path, but a directory can be made there: on the second disk it is there,
with nothing in it. -/
structure Creates (d : Disk) (here : Path) (root : Place) (d₁ : Disk) : Prop where
  no_nul : 0 ∉ here.text
  absent : d.isPresent here = false
  made : d.makeDirectories here = (.ok (), d₁)
  find : ∃ m, d₁.find here = .ok (.at root (.dir m))
  bare : d₁.children root = []

namespace Creates

theorem grows (h : Creates d here root d₁) (hd : d.Grounded) : Grows d d₁ ∧ d₁.Grounded := by
  have hgrown := hd.makeDirectories here
  rwa [h.made] at hgrown

theorem get?_below (h : Creates d here root d₁) (hd : d.Grounded) (hne : ns ≠ []) :
    d₁.get? (root ++ ns) = none := by
  obtain ⟨m, hfind⟩ := h.find
  exact (h.grows hd).2.tree.below_of_children (get?_of_find hfind) (fun _ _ => h.bare)
    (List.prefix_append root ns) (by simpa using hne)

theorem rooted (h : Creates d here root d₁) (hd : d.Grounded) : Rooted here root d₁ := by
  obtain ⟨m, hfind⟩ := h.find
  refine rooted_of_find (h.grows hd).2 h.no_nul hfind ?_
  rintro q t ⟨ns, rfl⟩ hlink
  by_cases hne : ns = []
  · rw [hne, List.append_nil, get?_of_find hfind] at hlink
    cases hlink
  · rw [h.get?_below hd hne] at hlink
    cases hlink

/-- The names of the path lead to nothing: a file there would still be in the way of the directory. -/
theorem vacant_names (h : Creates d here root d₁) (hd : d.Grounded) :
    Vacant (d.follow true maxLinks (d.base here.isAbsolute) here.names) := by
  obtain ⟨hgrows, hd₁⟩ := h.grows hd
  obtain ⟨m, hfind⟩ := h.find
  obtain ⟨htext, hvacant, -⟩ := vacant_of_makeDirectories h.made h.absent
  rcases vacant_names_of_find hd.tree (hd.base _) h.no_nul htext hvacant with
    hvacant | ⟨q, x, s, hfile⟩
  · exact hvacant
  · have hnames := follow_names_of_find hd₁.tree (hd₁.base _) h.no_nul hfind
    have hkept := follow_of_keeps hgrows.keeps hfile rfl (hgrows.get? (spot_of_follow hfile)) rfl
    rw [base, hgrows.cwd] at hnames
    cases hnames.symm.trans hkept

theorem names_ne_nil (h : Creates d here root d₁) (hd : d.Grounded) : here.names ≠ [] := by
  intro hnil
  have hvacant := h.vacant_names hd
  obtain ⟨m, hbase⟩ := hd.base here.isAbsolute
  rw [hnil, follow, (Ends.here hbase).reach_eq] at hvacant
  cases hvacant

/-- Behind the path is missing what was made for it. -/
theorem exists_lacks (h : Creates d here root d₁) (hd : d.Grounded) (hc : Proper c)
    (hshort : (here / c).text.length ≤ maxPath) :
    ∃ n l, n ≤ here.text.length + 2 ∧ Lacks d n (here / c) (here / c :: l) ∧
      l.length ≤ here.names.length ∧ d.makeEach l.reverse = (.ok (), d₁) := by
  obtain ⟨htext, -, l, hmissing, hmade⟩ := vacant_of_makeDirectories h.made h.absent
  obtain ⟨-, n, hn, hlacks⟩ := lacks_of_missing hmissing
  have hnames := h.names_ne_nil hd
  have htrim : Path.trimEnd here.text ≠ [] := fun hnil => by
    have hsame := Path.names_trimEnd here.text
    rw [hnil] at hsame
    exact hnames hsame.symm
  have hparent : (here / c).parent = ⟨Path.trimEnd here.text⟩ := by
    rw [Path.parent_join hc htext, if_neg htrim]
  have hstart : (if here.endsInSlash then here.parent else here) = ⟨Path.trimEnd here.text⟩ := by
    cases hends : here.endsInSlash with
    | true =>
      rw [if_pos rfl, Path.parent, List.isEmpty_eq_false_iff.2 hnames, hends]
      rfl
    | false =>
      rw [if_neg (by decide), Path.trimEnd_of_last (Path.last_of_not_endsInSlash hnames hends)]
  rw [hstart] at hlacks
  have hlength := hlacks.length_le htrim (Path.getLast?_trimEnd _)
  rw [Path.names_trimEnd] at hlength
  refine ⟨n + 1, l, by omega, ?_, hlength, hmade⟩
  exact lacks_join_of_vacant hc htext h.no_nul hshort (h.vacant_names hd) (hparent ▸ hlacks)

/-- What is made behind the path is the same as if the directory had been made there before. -/
theorem makeDirectories_along (h : Creates d here root d₁) (hd : d.Grounded)
    (hns : ∀ a ∈ ns, Ordinary a) (hne : ns ≠ []) (hshort : (here.along ns).text.length ≤ maxPath)
    (hroom : here.names.length + ns.length ≤ maxMissing) :
    Vacant (d.find (here.along ns)) ∧ Vacant (d₁.find (here.along ns)) ∧
      d.makeDirectories (here.along ns) = d₁.makeDirectories (here.along ns) := by
  obtain ⟨c, ns, rfl⟩ := List.exists_cons_of_ne_nil hne
  have hc := hns c List.mem_cons_self
  have hproper := fun a ha => (hns a ha).proper
  have hle := Path.le_length_along (here / c) fun a ha => hproper a (List.mem_cons_of_mem c ha)
  have hmid : (here / c).text.length ≤ maxPath :=
    Nat.le_trans (Nat.le_of_add_right_le hle) hshort
  obtain ⟨-, hd₁⟩ := h.grows hd
  have hrooted := h.rooted hd
  obtain ⟨m, hfollow⟩ := hrooted.site.follow_eq
  obtain ⟨n, l, hn, hlacks, hlength, hmade⟩ := h.exists_lacks hd hc.proper hmid
  obtain ⟨hvacant, hmake⟩ := makeDirectories_of_lacks hd h.no_nul hrooted.text_ne_nil hproper hshort
    (vacant_follow_append hd.tree (hd.base _) (h.vacant_names hd) [c]) hlacks hn (by omega)
  have hlacks₁ := lacks_join_of_dir hc.proper hrooted.text_ne_nil h.no_nul hmid hfollow
  obtain ⟨hvacant₁, hmake₁⟩ := makeDirectories_of_lacks (l := []) hd₁ h.no_nul hrooted.text_ne_nil
    hproper hshort (hrooted.vacant hc (h.get?_below hd (List.cons_ne_nil c []))) hlacks₁
    (Nat.le_add_left _ _) (by simp only [List.length_nil]; omega)
  refine ⟨hvacant, hvacant₁, ?_⟩
  rw [hmake, hmake₁, makeEach_append hmade]
  rfl

end Creates

end FileCourier.Disk
