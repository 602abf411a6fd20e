import FileCourier.Proofs.Disk.Holding
import FileCourier.Proofs.MasterFiles.Confined
import FileCourier.Proofs.MasterFiles.Served

/-!
# Files that are served to a place below a directory

A file for a free name below a directory is written there, and nothing else changes but the directories
on the way to it, whatever the master answers (`getFile_below`). So it becomes part of the tree that
stands below that directory (`getFile_adds`), with all of its content when it is served
(`getFile_added`).
-/

namespace FileCourier

open Disk (Copied Creates Reachable Rooted Within maxPath)
open FileCourier.Path (Ordinary)

variable {σ : Type} {m : MasterFiles σ} {r : FileRequest} {relative content name : Bytes}
  {d d₀ d₁ : Disk} {root p : Place} {here path : Path} {above : List Bytes} {c : Bytes}
  {beyond : σ} {t : FileTree}

/-- A directory that can be made is prepared, also when it is there already. -/
theorem Chores.prepareParent_of_made (h : d.makeDirectories path = (.ok (), d₁)) :
    Chores.prepareParent path true d = (.ok true, d₁) := by
  rw [Chores.prepareParent, Action.get_bind]
  split
  · rename_i hready
    have hsame : d.makeDirectories path = (.ok (), d) := by
      rw [Bool.or_eq_true] at hready
      rcases hready with hempty | hdirectory
      · rw [Disk.makeDirectories, hempty, if_pos rfl] at h
        cases h
      · obtain ⟨q, n, hfind⟩ := Disk.find_of_isDirectory hdirectory
        cases hempty : path.isEmpty with
        | true =>
          rw [Disk.makeDirectories, hempty, if_pos rfl] at h
          cases h
        | false => rw [Disk.makeDirectories, hempty, if_neg (by decide), hfind]
    rw [hsame] at h
    cases h
    rfl
  · have hmake : Chores.makeDirectories path d = (.ok (), d₁) := by
      rw [Chores.makeDirectories, h]
    exact Action.bind_ok hmake

/-- The directory stays rooted when a file is put below it. -/
theorem Disk.Rooted.of_within (h : Rooted here root d)
    (hsite : Disk.Site here.isAbsolute here.names root d₁) (hwithin : Within (· = p) d d₁)
    (hnone : d.get? p = none) : Rooted here root d₁ where
  site := hsite
  grounded := by
    obtain ⟨n, hcwd⟩ := h.grounded.cwd
    refine ⟨hsite.tree, n, ?_⟩
    rw [hwithin.cwd, hwithin.get?, hcwd]
    rintro rfl
    rw [hcwd] at hnone
    cases hnone
  no_nul := h.no_nul
  text_ne_nil := h.text_ne_nil

namespace MasterFiles

/-- A request that begins has opened its destination, once the directory above was prepared. -/
theorem openForWriting_of_begin {dl : Download} {d' : Disk} (hdest : r.dest ≠ [])
    (hprepare : Chores.prepareParent (Path.parent r.dest) r.makeParents d = (.ok true, d₁))
    (h : begin r d = (.ok (some dl), d')) :
    ∃ place, d₁.openForWriting r.dest = .ok (place, d') ∧ dl.handle = .writing place := by
  rw [begin, List.isEmpty_eq_false_iff.2 hdest, if_neg (by decide), Action.bind_ok hprepare,
    if_pos rfl] at h
  obtain ⟨dl', d'', hstart, hdl⟩ := Action.exists_of_bind_ok h
  cases hdl
  rcases Download.act_start_cases hstart with ⟨-, e, he⟩ | ⟨place, hopen, hdl⟩
  · cases he
  · cases hdl
    exact ⟨place, hopen, rfl⟩

/-- A request whose destination begins has opened it when it ends. -/
theorem exists_entryAt?_of_begin (m : MasterFiles σ) (beyond : σ) {dl : Download} {d' : Disk}
    (hdest : r.dest ≠ []) (hstrip : VirtualPath.strip? r.path = some relative)
    (h : begin r d = (.ok (some dl), d')) :
    ∃ x s, (m.getFile r ⟨d, beyond⟩).2.disk.entryAt? ⟨r.dest⟩ = some (.file x s) := by
  have account := getFile_account m ⟨d, beyond⟩ hstrip
  generalize m.exchanges r ⟨d, beyond⟩ = log at account
  generalize (m.getFile r ⟨d, beyond⟩).1 = result at account
  generalize (m.getFile r ⟨d, beyond⟩).2.disk = disk' at account ⊢
  cases account with
  | opened hopened _ hend =>
    obtain rfl := opened?_of_dest_ne_nil hdest hopened
    obtain ⟨x, hentry⟩ := hend
    exact ⟨x, _, hentry⟩
  | unopened _ hunopened =>
    cases hunopened with
    | unavailable hother | refused hother => cases h.symm.trans hother
    | impatient hnil | timeout hnil | fault hnil | notFound hnil | unstarted hnil =>
      exact absurd hnil hdest

/-- A file for a free name below a directory is opened there, and nothing else is touched, whatever the
master answers. -/
theorem getFile_below (m : MasterFiles σ) (hstrip : VirtualPath.strip? r.path = some relative)
    (hdest : ⟨r.dest⟩ = here.along (above ++ [c]))
    (hprepare : Chores.prepareParent (Path.parent r.dest) r.makeParents d = (.ok true, d₁))
    (h : Rooted here root d₁) (hns : ∀ a ∈ above ++ [c], Ordinary a)
    (hshort : r.dest.length ≤ maxPath) {k : Nat} (hdir : d₁.get? (root ++ above) = some (.dir k))
    (hnone : d₁.get? (root ++ (above ++ [c])) = none) (beyond : σ) :
    r.dest ≠ [] ∧ Writable r d ∧ ∃ x s d₂, (m.getFile r ⟨d, beyond⟩).2.disk = d₂ ∧
      Rooted here root d₂ ∧ Within (· = root ++ (above ++ [c])) d₁ d₂ ∧
      d₂.entryAt? ⟨r.dest⟩ = some (.file x s) ∧
      d₂.get? (root ++ (above ++ [c])) = some (.file x s) := by
  have hbehind := h.behind (fun a ha => (hns a ha).proper)
    (List.append_ne_nil_of_right_ne_nil above (List.cons_ne_nil c []))
  have hfree := h.find_free hns (hdest ▸ hshort) hdir (by rwa [List.append_assoc])
  rw [← hdest] at hfree hbehind
  have htext : r.dest ≠ [] := Disk.text_ne_nil_of_find hbehind.reads.no_nul hfree
  have hwritable : Writable r d := ⟨d₁, hprepare, .inl ⟨_, _, hfree⟩⟩
  -- The run is the download into the file that was opened, and touches nothing else.
  obtain ⟨dl, d', hbegin⟩ := exists_begin htext hwritable
  have hrun : m.getFile r ⟨d, beyond⟩ = m.fetch r relative m.patience dl ⟨d', beyond⟩ := by
    rw [getFile_apply m _ hstrip, hbegin]
  obtain ⟨place, hopen, hhandle⟩ := openForWriting_of_begin htext hprepare hbegin
  obtain ⟨rfl, hsite, hopened⟩ := h.site.openForWriting_below hbehind hopen
  obtain ⟨hsite', hfetched⟩ :=
    fetch_site m r relative hsite (tracks_of_begin htext hbegin) hhandle m.patience beyond
  rw [← hrun] at hsite' hfetched
  have hwithin := hopened.trans hfetched
  obtain ⟨x, s, hentry⟩ := exists_entryAt?_of_begin m beyond htext hstrip hbegin
  refine ⟨htext, hwritable, x, s, _, rfl, h.of_within hsite' hwithin hnone, hwithin, hentry, ?_⟩
  obtain ⟨place, hfind⟩ := Disk.find_of_entryAt? hentry
  obtain rfl : place = root ++ (above ++ [c]) := hsite'.place_eq hbehind.proper hbehind.ne_nil
    (Disk.follow_of_find hbehind.reads hfind)
  exact Disk.get?_of_find hfind

/-- A file for a place behind the path of a copy is added to the tree there with what is delivered of
it, whatever the master answers. -/
theorem getFile_adds (m : MasterFiles σ) (h : Copied d here root d₀ t d₁) (hd : d.Grounded)
    (hcreates : Creates d here root d₀) (hstrip : VirtualPath.strip? r.path = some relative)
    (hmake : r.makeParents = true) (hdest : ⟨r.dest⟩ = here.along (above ++ [c]))
    (habove : Reachable here above) (hc : Ordinary c) (hshort : r.dest.length ≤ maxPath)
    (hapart : ∀ ms ∈ t.leaves, FileTree.Apart ms (above ++ [c])) (beyond : σ) :
    r.dest ≠ [] ∧ Writable r d₁ ∧ ∃ x s d₂, (m.getFile r ⟨d₁, beyond⟩).2.disk = d₂ ∧
      d₂.entryAt? ⟨r.dest⟩ = some (.file x s) ∧
      Copied d here root d₀ (t.addFile (above ++ [c], s)) d₂ := by
  have hne : above ++ [c] ≠ [] := List.append_ne_nil_of_right_ne_nil above (List.cons_ne_nil c [])
  have hns : ∀ a ∈ above ++ [c], Ordinary a := List.forall_mem_append.2
    ⟨habove.ordinary, fun a ha => List.mem_singleton.1 ha ▸ hc⟩
  have hfile {s : Bytes} : (above ++ [c], s) ∉ t.files := fun hmem =>
    (hapart _ (FileTree.mem_leaves_of_file hmem)).1 (List.prefix_refl _)
  obtain ⟨d', d'', hholding, hmade, hgrown, hrooted, hwithin⟩ :=
    h.makeDirectories hd hcreates habove fun f hf hpre =>
      (hapart _ (FileTree.mem_leaves_of_file hf)).1
        (hpre.trans (List.prefix_append above [c]))
  obtain ⟨k, hdir⟩ := hgrown.dir habove.ne_nil (List.prefix_refl above)
  have hparent : Path.parent r.dest = here.along above := by
    have hreads := (hrooted.behind (fun a ha => (habove.ordinary a ha).proper) habove.ne_nil).reads
    have hjoin : here.along (above ++ [c]) = here.along above / c := Path.along_append here above [c]
    rw [hdest, hjoin]
    exact Path.parent_join_of_last hc.proper (hrooted.along habove.ordinary hdir).text_ne_nil
      (hreads.last (List.append_ne_nil_of_right_ne_nil _ habove.ne_nil))
  have hprepare : Chores.prepareParent (Path.parent r.dest) r.makeParents d₁ = (.ok true, d'') := by
    rw [hparent, hmake]
    exact Chores.prepareParent_of_made hmade
  have hfree : d'.get? (root ++ (above ++ [c])) = none :=
    hholding.get?_eq_none (fun _ => hfile) (FileTree.not_isDirectory_of_apart hne hapart)
  have hnone : d''.get? (root ++ (above ++ [c])) = none := by
    rw [hgrown.kept (.inr ?_), hfree]
    rintro ⟨ms, -, hpre, heq⟩
    rw [← List.append_cancel_left heq] at hpre
    have hlength := hpre.length_le
    rw [List.length_append] at hlength
    exact absurd hlength (Nat.not_succ_le_self above.length)
  obtain ⟨htext, hwritable, x, s, d₂, hrun, hrooted₂, hwithin₂, hentry, hfile₂⟩ :=
    getFile_below m hstrip hdest hprepare hrooted hns hshort hdir hnone beyond
  refine ⟨htext, hwritable, x, s, d₂, hrun, hentry,
    .stands ?_ ⟨hrooted₂, ?_, hwithin.trans (hwithin₂.mono ?_)⟩⟩
  · exact List.ne_nil_of_mem (List.mem_append_left _ (List.mem_map_of_mem
      (List.mem_append_right _ List.mem_cons_self)))
  · exact hholding.written hgrown hwithin₂ hfile₂ hfree hrooted₂.site.noLink
  · rintro q rfl
    exact Disk.below_append root hne

/-- A file that is served to a place behind the path of a copy is added to the tree there. -/
theorem getFile_added (h : Copied d here root d₀ t d₁) (hd : d.Grounded)
    (hcreates : Creates d here root d₀) (hpath : r.path = VirtualPath.mark ++ relative)
    (hserves : m.Serves r relative content name) (hpatience : content.length < m.patience)
    (hmake : r.makeParents = true) (hdest : ⟨r.dest⟩ = here.along (above ++ [c]))
    (habove : Reachable here above) (hc : Ordinary c) (hshort : r.dest.length ≤ maxPath)
    (hapart : ∀ ms ∈ t.leaves, FileTree.Apart ms (above ++ [c])) :
    ∃ d₂ beyond', m.getFile r ⟨d₁, beyond⟩ = (.ok (.stored ⟨r.dest⟩), ⟨d₂, beyond'⟩) ∧
      Copied d here root d₀ (t.addFile (above ++ [c], content)) d₂ := by
  have hstrip := VirtualPath.strip?_eq_some_iff.2 hpath
  obtain ⟨htext, hwritable, x, s, d₂, rfl, hentry, hcopied⟩ :=
    getFile_adds m h hd hcreates hstrip hmake hdest habove hc hshort hapart beyond
  obtain ⟨dl, d', hbegin⟩ := exists_begin htext hwritable
  obtain ⟨hstored, ⟨y, hserved⟩, -⟩ := run_of_serves (w := ⟨d₁, beyond⟩) hpath hserves hpatience
    (.asked htext hbegin)
  rw [target, if_neg htext] at hstored hserved
  cases hserved.symm.trans hentry
  exact ⟨_, _, Prod.ext hstored rfl, hcopied⟩

end MasterFiles

end FileCourier
