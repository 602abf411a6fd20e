import FileCourier.Proofs.Cache.Building
import FileCourier.Proofs.Cache.Taking
import FileCourier.Proofs.Disk.Tidy

/-!
# A cache that is founded

The directory of a cache need not exist before anything is kept in it. Where there are no links and no
file is on the way to it, it is made with the directories below it (`exists_ensureDirectory_tidy`):
each component is a directory then, and only the places of the components have changed.
-/

namespace FileCourier.Making

open Disk (Aims Fills Tidy maxPath)
open FileCourier.Path (Ordinary Reads Spells spell weight)

variable {root here : Path} {d d' : Disk} {parent : Place} {done ns : List Bytes} {c : Bytes}

/-- One component is made a directory, and nothing else is changed. -/
theorem exists_run_tidy (hd : d.Tidy) (hhere : Reads root.isAbsolute (done ++ [c]) here)
    (hord : ∀ n ∈ done ++ [c], Ordinary n) (hshort : here.text.length ≤ maxPath)
    (hdir : ∃ m, d.get? (d.base root.isAbsolute ++ done) = some (.dir m))
    (hfile : ∀ x s, d.get? (d.base root.isAbsolute ++ (done ++ [c])) = some (.file x s) →
      here.isWithin root = true) (rest : List Bytes) :
    ∃ k d', k ≤ stepsEach ∧ run root k (.at .look here rest) d = (next here rest, d') ∧ d'.Tidy ∧
      Fills (· = d.base root.isAbsolute ++ (done ++ [c])) d d' ∧
      ∃ m, d'.get? (d.base root.isAbsolute ++ (done ++ [c])) = some (.dir m) := by
  have hc := hord c (by simp)
  have haims := hd.aims hhere hord hshort hdir
  have later {d₁ : Disk} (hk : Disk.Keeps d d₁) := hd.aims_of_keeps hhere hord hshort hdir hk
  rw [← List.append_assoc] at hfile ⊢
  generalize d.base root.isAbsolute ++ done = parent at *
  have hne : parent ++ [c] ≠ [] := by simp
  have hmade : Aims (d.put (parent ++ [c]) (.dir Disk.openMode)) here parent c :=
    later (Disk.keeps_put_of hne (hd.noLink _) fun _ _ => ⟨_, rfl⟩) fun t => by
      rw [Disk.get?_put_self hne]
      nofun
  have hdropped : ∀ x s, d.get? (parent ++ [c]) = some (.file x s) →
      here.isWithin root = true ∧ Aims (d.drop (parent ++ [c])) here parent c := fun x s hstands =>
    ⟨hfile x s hstands, later (Disk.keeps_drop_file hstands) fun t => by
      rw [Disk.get?_drop_self hne]
      nofun⟩
  obtain ⟨k, d', hk, hrun, ⟨hstands, rfl⟩ | ⟨hnodir, rfl⟩⟩ :=
    exists_run_aimed haims hmade hdropped rest
  · exact ⟨k, d', hk, hrun, hd, .refl _ _, hstands⟩
  · refine ⟨k, _, hk, hrun, hd.put hdir hc hnodir rfl, ?_, _, Disk.get?_put_self hne⟩
    exact Disk.within_put _ ⟨rfl, hnodir⟩ d _

/-- Components are made directories one after the other, if the files in their places are in the
cache. -/
theorem exists_run_along_tidy (done ns : List Bytes) (hd : d.Tidy) (htext : root.text ≠ [])
    (hord : ∀ n ∈ done ++ ns, Ordinary n)
    (hshort : weight (done ++ ns) + (if root.isAbsolute then 1 else 0) ≤ maxPath)
    (hdir : ∃ m, d.get? (d.base root.isAbsolute ++ done) = some (.dir m))
    (hfile : ∀ pre, pre <+: done ++ ns → ∀ x s,
      d.get? (d.base root.isAbsolute ++ pre) = some (.file x s) → root.names <+: pre) :
    ∃ d', run root (stepsEach * ns.length) (next (spell root.isAbsolute done) ns) d =
        (finished, d') ∧ d'.Tidy ∧ Fills (OnWay (d.base root.isAbsolute) (done ++ ns)) d d' ∧
      ∃ m, d'.get? (d.base root.isAbsolute ++ (done ++ ns)) = some (.dir m) := by
  induction ns generalizing done d with
  | nil =>
    rw [List.append_nil]
    exact ⟨d, rfl, hd, .refl _ d, hdir⟩
  | cons c ns ih =>
    rw [List.append_cons] at hord hshort hfile ⊢
    have hordHere : ∀ n ∈ done ++ [c], Ordinary n := fun n hn => hord n (List.mem_append_left _ hn)
    have hspells : Spells root.isAbsolute (done ++ [c]) (spell root.isAbsolute (done ++ [c])) := by
      refine Path.spells_spell hordHere (by simp) ?_
      rw [Path.weight_append] at hshort
      omega
    have hhere : Reads root.isAbsolute (done ++ [c]) (spell root.isAbsolute (done ++ [c])) :=
      ⟨hspells.isAbsolute_eq, hspells.names_eq, hspells.endsInSlash,
        Path.no_nul_of_names (by rwa [hspells.names_eq])⟩
    obtain ⟨k, d₁, hk, hrun, hd₁, hfills, hdir₁⟩ :=
      exists_run_tidy hd hhere hordHere hspells.short hdir (fun x s hstands =>
        hspells.isWithin hordHere (by simp) htext
          (hfile _ (List.prefix_append _ ns) x s hstands)) ns
    have hbase : d₁.base root.isAbsolute = d.base root.isAbsolute := by
      rw [Disk.base, hfills.cwd, ← Disk.base]
    obtain ⟨d₂, hrest, hd₂, hfills', hdir₂⟩ := ih (done ++ [c]) hd₁ hord hshort (hbase ▸ hdir₁)
      fun pre hpre x s hstands => by
        -- A file that is still there stood there before: what was made is a directory.
        rw [hbase] at hstands
        refine hfile pre hpre x s ((hfills.get? fun hplace => ?_).symm.trans hstands)
        obtain ⟨m, hm⟩ := hdir₁
        rw [hplace.1, hm] at hstands
        cases hstands
    rw [hbase] at hfills' hdir₂
    refine ⟨d₂, ?_, hd₂, (hfills.mono fun q hq => ?_).trans hfills', hdir₂⟩
    · have hsteps : stepsEach * (c :: ns).length =
          k + (stepsEach * ns.length + (stepsEach - k)) := by
        rw [List.length_cons, Nat.mul_succ]
        omega
      rw [next_spell_cons, hsteps, run_trans hrun, run_trans hrest, run_finished]
    · exact ⟨done ++ [c], by simp, List.prefix_append _ ns, hq⟩

end FileCourier.Making

namespace FileCourier.Cache

open Disk (Fills maxPath)
open Making (OnWay)
open FileCourier.Path (Ordinary Reads weight)

variable {c : Cache} {p : Path} {d : Disk} {ns : List Bytes}

/-- The directory of a cache is made, if it can be, with the directories below it. -/
theorem exists_ensureDirectory_tidy (hd : d.Tidy) (htext : c.root.text ≠ [])
    (hroot : d.Creatable c.root) (hp : Reads c.root.isAbsolute (c.root.names ++ ns) p)
    (hord : ∀ n ∈ c.root.names ++ ns, Ordinary n)
    (hshort : weight (c.root.names ++ ns) + (if c.root.isAbsolute then 1 else 0) ≤ maxPath) :
    ∃ d', c.ensureDirectory p d = (.ok (), d') ∧ d'.Tidy ∧
      Fills (OnWay (d.base c.root.isAbsolute) (c.root.names ++ ns)) d d' ∧
      ∃ m, d'.get? (d.base c.root.isAbsolute ++ (c.root.names ++ ns)) = some (.dir m) := by
  have hfile : ∀ pre, pre <+: c.root.names ++ ns → ∀ x s,
      d.get? (d.base c.root.isAbsolute ++ pre) = some (.file x s) → c.root.names <+: pre := by
    intro pre hpre x s hstands
    rcases Disk.prefix_append_cases hpre with habove | ⟨rest, -, -, rfl⟩
    · exact absurd hstands
        (hroot.not_file (fun n hn => hord n (List.mem_append_left _ hn)) habove)
    · exact List.prefix_append _ rest
  obtain ⟨m, hbase⟩ := hd.base c.root.isAbsolute
  obtain ⟨d', hrun, hd', hfills, hdir⟩ := Making.exists_run_along_tidy [] (c.root.names ++ ns) hd htext
    hord hshort ⟨m, by rwa [List.append_nil]⟩ hfile
  obtain ⟨k, hk, hstart⟩ := Making.exists_run_start c.root hp.components d
  have hsteps : ∃ j, Making.stepsEach * p.components.length =
      k + (Making.stepsEach * (c.root.names ++ ns).length + j) := by
    have hcount : p.components.length =
        (if c.root.isAbsolute then 1 else 0) + (c.root.names ++ ns).length := by
      rw [hp.components, List.length_append]
      cases c.root.isAbsolute <;> rfl
    refine ⟨Making.stepsEach * (if c.root.isAbsolute then 1 else 0) - k, ?_⟩
    rw [hcount, Nat.mul_add]
    omega
  obtain ⟨j, hsteps⟩ := hsteps
  refine ⟨d', ?_, hd', hfills, hdir⟩
  rw [ensureDirectory, Making.complete, hsteps, Making.run_trans hstart, Making.run_trans hrun,
    Making.run_finished]

end FileCourier.Cache
