import FileCourier.Cache
import FileCourier.Proofs.Disk.Region

/-!
# Directories are made in a region

Inside a region every component of a path can be made a directory, whatever stood in its place
(`exists_run_component`), so a maker that comes down the way to the region's root gets to the end of
its path (`exists_complete`).
-/

namespace FileCourier.Making

open Disk (Aims Region Points)
open FileCourier.Path (Ordinary Spells spell weight)

variable {root here : Path} {m m' : Making} {ground d d' : Disk} {P parent : Place}
  {absolute : Bool} {ns rest : List Bytes} {c : Bytes} {n : Nat}

theorem run_trans (h : run root n m d = (m', d')) (k : Nat) :
    run root (n + k) m d = run root k m' d' := by
  induction n generalizing m d with
  | zero =>
    cases h
    rw [Nat.zero_add]
  | succ n ih =>
    rw [Nat.succ_add, run]
    exact ih h

theorem run_finished (root : Path) (n : Nat) (d : Disk) : run root n finished d = (finished, d) := by
  induction n with
  | zero => rfl
  | succ n ih => exact ih

/-- A component that is a directory is passed. -/
theorem run_one_of_isDirectory (root : Path) (h : d.isDirectory here = true) (rest : List Bytes) :
    run root 1 (.at .look here rest) d = (next here rest, d) := by
  simp only [run, step, h, if_true]

/-- Where nothing stands, or a file that may be removed, a directory is made for the owner alone. -/
theorem exists_run_aimed (h : Aims d here parent c)
    (hmade : Aims (d.put (parent ++ [c]) (.dir Disk.openMode)) here parent c)
    (hfile : ∀ x s, d.get? (parent ++ [c]) = some (.file x s) →
      here.isWithin root = true ∧ Aims (d.drop (parent ++ [c])) here parent c) (rest : List Bytes) :
    ∃ k d', k ≤ stepsEach ∧ run root k (.at .look here rest) d = (next here rest, d') ∧
      ((∃ m, d.get? (parent ++ [c]) = some (.dir m)) ∧ d' = d ∨
        (∀ m, d.get? (parent ++ [c]) ≠ some (.dir m)) ∧
          d' = d.put (parent ++ [c]) (.dir Disk.ownerMode)) := by
  have hne : parent ++ [c] ≠ [] := List.append_ne_nil_of_right_ne_nil parent (List.cons_ne_nil c [])
  have hrestrict : (d.put (parent ++ [c]) (.dir Disk.openMode)).setMode here Disk.ownerMode =
      d.put (parent ++ [c]) (.dir Disk.ownerMode) :=
    (hmade.setMode_eq (Disk.get?_put_self hne) _).trans (Disk.put_put d _ _ _)
  cases hsome : d.get? (parent ++ [c]) with
  | none =>
    have hnoDirectory : d.isDirectory here = false := by
      rw [Disk.isDirectory, h.entryAt?_eq, hsome]
    have hnoFile : d.isFile here = false := by
      rw [Disk.isFile, h.entryAt?_eq, hsome]
    refine ⟨4, _, by decide, ?_, .inr ⟨fun m hdir => (by cases hdir), rfl⟩⟩
    simp only [run, step, hnoDirectory, hnoFile, Bool.false_and, Bool.false_eq_true, if_false,
      h.makeDirectory_eq hsome, hrestrict]
  | some e =>
    cases e with
    | dir m =>
      have hisDirectory : d.isDirectory here = true := by
        rw [Disk.isDirectory, h.entryAt?_eq, hsome]
      exact ⟨1, d, by decide, run_one_of_isDirectory root hisDirectory rest, .inl ⟨⟨m, rfl⟩, rfl⟩⟩
    | link t => exact absurd hsome (h.noLink t)
    | file x s =>
      obtain ⟨hwithin, hdropped⟩ := hfile x s hsome
      have hnoDirectory : d.isDirectory here = false := by
        rw [Disk.isDirectory, h.entryAt?_eq, hsome]
      have hisFile : d.isFile here = true := by
        rw [Disk.isFile, h.entryAt?_eq, hsome]
      have hmake := hdropped.makeDirectory_eq (Disk.get?_drop_self hne)
      rw [Disk.put_drop] at hmake
      refine ⟨5, _, by decide, ?_, .inr ⟨fun m hdir => (by cases hdir), rfl⟩⟩
      simp only [run, step, hnoDirectory, hisFile, hwithin, h.remove_file hsome, Bool.and_self,
        Bool.false_eq_true, if_false, if_true, hmake, hrestrict]

/-- Whatever stands in its place, a component in a region is made a directory. -/
theorem exists_run_component (h : Points ground P d here parent c)
    (hwithin : here.isWithin root = true) (rest : List Bytes) :
    ∃ k d', k ≤ stepsEach ∧ run root k (.at .look here rest) d = (next here rest, d') ∧
      Region ground P d' ∧ ∃ m, d'.get? (parent ++ [c]) = some (.dir m) := by
  have hdropped : ∀ x s, d.get? (parent ++ [c]) = some (.file x s) →
      Aims (d.drop (parent ++ [c])) here parent c := fun x s hfile =>
    (h.drop fun p => Disk.get?_below_eq_none h.region.tree
      (h.inside.trans (List.prefix_append parent [c])) fun m => by simp [hfile]).aims
  obtain ⟨k, d', hk, hrun, ⟨hdir, rfl⟩ | ⟨-, rfl⟩⟩ := exists_run_aimed h.aims
    (h.put_dir Disk.openMode).aims (fun x s hfile => ⟨hwithin, hdropped x s hfile⟩) rest
  · exact ⟨k, d', hk, hrun, h.region, hdir⟩
  · exact ⟨k, _, hk, hrun, (h.put_dir Disk.ownerMode).region, _, Disk.get?_put_self (by simp)⟩

/-! ## Whole paths -/

theorem next_spell_cons (absolute : Bool) (ns rest : List Bytes) (c : Bytes) :
    next (spell absolute ns) (c :: rest) = .at .look (spell absolute (ns ++ [c])) rest := by
  rw [next, Path.spell_append_singleton]

/-- On the way to the root of the region every component is a directory already. -/
theorem run_way {done todo : List Bytes} (hk : Disk.Keeps ground d)
    (hway : ground.Way absolute (done ++ todo) P) (hord : ∀ n ∈ done ++ todo, Ordinary n)
    (hshort : weight (done ++ todo) + (if absolute then 1 else 0) ≤ Disk.maxPath) :
    run root todo.length (next (spell absolute done) (todo ++ rest)) d =
      (next (spell absolute (done ++ todo)) rest, d) := by
  induction todo generalizing done with
  | nil =>
    rw [List.append_nil]
    rfl
  | cons c todo ih =>
    rw [List.append_cons] at hway hord hshort ⊢
    have hspells : Spells absolute (done ++ [c]) (spell absolute (done ++ [c])) := by
      refine Path.spells_spell (fun n hn => hord n (List.mem_append_left _ hn)) (by simp) ?_
      rw [Path.weight_append] at hshort
      omega
    have hisDirectory : d.isDirectory (spell absolute (done ++ [c])) = true := by
      obtain ⟨q, m, hfollow, -⟩ := hway.of_keeps hk (done ++ [c]) todo rfl
      have hfind : d.find (spell absolute (done ++ [c])) = .ok (.at q (.dir m)) := by
        rw [Disk.find, Disk.locate_of_spells hspells
          (fun n hn => hord n (List.mem_append_left _ hn)) (by simp), hfollow]
      rw [Disk.isDirectory, Disk.entryAt?, hfind]
    have hone := run_one_of_isDirectory root hisDirectory (todo ++ rest)
    rw [List.cons_append, next_spell_cons, List.length_cons, Nat.add_comm, run_trans hone]
    exact ih hway hord hshort

/-- Behind the root of the region, components are made directories one after the other. -/
theorem exists_run_below (done ns : List Bytes) (hregion : Region ground P d)
    (hway : ground.Way root.isAbsolute root.names P) (htext : root.text ≠ [])
    (hord : ∀ n ∈ root.names ++ done ++ ns, Ordinary n)
    (hshort : weight (root.names ++ done ++ ns) + (if root.isAbsolute then 1 else 0) ≤
      Disk.maxPath)
    (hdir : ∃ m, d.get? (P ++ done) = some (.dir m)) :
    ∃ d', run root (stepsEach * ns.length)
        (next (spell root.isAbsolute (root.names ++ done)) ns) d = (finished, d') ∧
      Region ground P d' ∧ ∃ m, d'.get? (P ++ done ++ ns) = some (.dir m) := by
  induction ns generalizing done d with
  | nil =>
    rw [List.append_nil]
    exact ⟨d, rfl, hregion, hdir⟩
  | cons c ns ih =>
    rw [List.append_cons] at hord hshort ⊢
    have hspells : Spells root.isAbsolute (root.names ++ done ++ [c])
        (spell root.isAbsolute (root.names ++ done ++ [c])) := by
      refine Path.spells_spell (fun n hn => hord n (List.mem_append_left _ hn)) (by simp) ?_
      rw [Path.weight_append] at hshort
      omega
    have hordHere : ∀ n ∈ root.names ++ done ++ [c], Ordinary n :=
      fun n hn => hord n (List.mem_append_left _ hn)
    have hpoints : Points ground P d (spell root.isAbsolute (root.names ++ done ++ [c]))
        (P ++ done) c := ⟨hregion, hdir, _, _, _, hway, rfl, hspells, hordHere⟩
    have hwithin := hspells.isWithin hordHere (by simp) htext
      ⟨done ++ [c], (List.append_assoc _ _ _).symm⟩
    obtain ⟨k, d', hk, hrun, hregion', hdir'⟩ := exists_run_component hpoints hwithin ns
    rw [List.append_assoc] at hdir'
    obtain ⟨d'', hrest, hregion'', hdir''⟩ := ih (done ++ [c]) hregion' (by rwa [← List.append_assoc])
      (by rwa [← List.append_assoc]) hdir'
    refine ⟨d'', ?_, hregion'', ?_⟩
    · -- Steps that a component does not need are spent when the maker has finished.
      have hsteps : stepsEach * (c :: ns).length =
          k + (stepsEach * ns.length + (stepsEach - k)) := by
        rw [List.length_cons, Nat.mul_succ]
        omega
      rw [next_spell_cons, hsteps, run_trans hrun]
      rw [List.append_assoc, run_trans hrest, run_finished]
    · rwa [List.append_assoc P done [c]]

/-- A maker first passes the slash that a path may start with. -/
theorem exists_run_start (root : Path) {p : Path} (hp : p.components =
      (if absolute then [[slash]] else []) ++ ns) (d : Disk) :
    ∃ k, k ≤ stepsEach * (if absolute then 1 else 0) ∧
      run root k (start p) d = (next (spell absolute []) ns, d) := by
  rw [start, hp]
  cases absolute with
  | false => exact ⟨0, Nat.le_refl 0, rfl⟩
  | true =>
    have hslash : d.isDirectory (⟨[]⟩ / [slash] : Path) = true := rfl
    exact ⟨1, by decide, run_one_of_isDirectory root hslash _⟩

/-- A maker whose path leads into the region comes down the way to it. -/
theorem exists_complete_eq {p : Path} (hk : Disk.Keeps ground d)
    (hway : ground.Way root.isAbsolute root.names P)
    (hp : p.components = (if root.isAbsolute then [[slash]] else []) ++ (root.names ++ ns))
    (hord : ∀ n ∈ root.names, Ordinary n)
    (hshort : weight root.names + (if root.isAbsolute then 1 else 0) ≤ Disk.maxPath) :
    ∃ n, stepsEach * ns.length ≤ n ∧
      complete root p d = run root n (next (spell root.isAbsolute root.names) ns) d := by
  have hwayNames : ground.Way root.isAbsolute ([] ++ root.names) P := hway
  have hpassed : run root root.names.length (next (spell root.isAbsolute []) (root.names ++ ns)) d =
      (next (spell root.isAbsolute root.names) ns, d) := run_way hk hwayNames hord hshort
  obtain ⟨k, hk, hstart⟩ := exists_run_start root hp d
  have hcount : p.components.length =
      (if root.isAbsolute then 1 else 0) + (root.names.length + ns.length) := by
    rw [hp, List.length_append, List.length_append]
    cases root.isAbsolute <;> rfl
  obtain ⟨n, hn, hsteps⟩ : ∃ n, stepsEach * ns.length ≤ n ∧
      stepsEach * p.components.length = k + (root.names.length + n) := by
    refine ⟨stepsEach * p.components.length - (k + root.names.length), ?_, ?_⟩
    all_goals
      rw [hcount, Nat.mul_add, Nat.mul_add, stepsEach] at *
      omega
  exact ⟨n, hn, by rw [complete, hsteps, run_trans hstart, run_trans hpassed]⟩

/-- A maker whose path leads into the region gets to its end. -/
theorem exists_complete {p : Path} (hregion : Region ground P d)
    (hway : ground.Way root.isAbsolute root.names P) (htext : root.text ≠ [])
    (hdir : ∃ m, d.get? P = some (.dir m))
    (hp : p.components = (if root.isAbsolute then [[slash]] else []) ++ (root.names ++ ns))
    (hord : ∀ n ∈ root.names ++ ns, Ordinary n)
    (hshort : weight (root.names ++ ns) + (if root.isAbsolute then 1 else 0) ≤ Disk.maxPath) :
    ∃ d', complete root p d = (finished, d') ∧ Region ground P d' ∧
      ∃ m, d'.get? (P ++ ns) = some (.dir m) := by
  have hshortRoot : weight root.names + (if root.isAbsolute then 1 else 0) ≤ Disk.maxPath := by
    rw [Path.weight_append] at hshort
    omega
  obtain ⟨n, hn, hcomplete⟩ := exists_complete_eq hregion.keeps hway hp
    (fun n hn => hord n (List.mem_append_left _ hn)) hshortRoot
  obtain ⟨d', hrun, hregion', hdir'⟩ := exists_run_below [] ns hregion hway htext
    (by rwa [List.append_nil]) (by rwa [List.append_nil]) (by rwa [List.append_nil])
  rw [List.append_nil] at hrun hdir'
  obtain ⟨j, rfl⟩ := Nat.exists_eq_add_of_le hn
  exact ⟨d', by rw [hcomplete, run_trans hrun, run_finished], hregion', hdir'⟩

end FileCourier.Making

namespace FileCourier.Cache

open Disk (Region)
open FileCourier.Path (Ordinary weight)

variable {c : Cache} {p : Path} {ground d : Disk} {P : Place} {ns : List Bytes}

/-- Directories in the cache can be made. -/
theorem exists_ensureDirectory (hregion : Region ground P d)
    (hway : ground.Way c.root.isAbsolute c.root.names P) (htext : c.root.text ≠ [])
    (hdir : ∃ m, d.get? P = some (.dir m))
    (hp : p.components = (if c.root.isAbsolute then [[slash]] else []) ++ (c.root.names ++ ns))
    (hord : ∀ n ∈ c.root.names ++ ns, Ordinary n)
    (hshort : weight (c.root.names ++ ns) + (if c.root.isAbsolute then 1 else 0) ≤ Disk.maxPath) :
    ∃ d', c.ensureDirectory p d = (.ok (), d') ∧ Region ground P d' ∧
      ∃ m, d'.get? (P ++ ns) = some (.dir m) := by
  obtain ⟨d', hcomplete, hregion', hdir'⟩ :=
    Making.exists_complete hregion hway htext hdir hp hord hshort
  refine ⟨d', ?_, hregion', hdir'⟩
  rw [ensureDirectory, hcomplete]

end FileCourier.Cache
