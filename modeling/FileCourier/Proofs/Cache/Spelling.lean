import FileCourier.Proofs.Cache.Putting
import FileCourier.Proofs.Cache.Turns

/-!
# Caches however their directory is spelled

The directory of a cache may be spelled with dots, steps up or slashes: if it exists, the directories
for a file are made in it, whatever old files stand in their places (`destination_replaces`). Only a
cache that is spelled as a dot does not take its own old files for its own
(`destination_does_not_replace`).
-/

namespace FileCourier.Cache

open FileCourier.Path (visited)

variable {c : Cache} {env name : Bytes} {d : Disk} {P : Place} {k : Nat}

/-- The directory of a cache is where its path leads. -/
theorem at_of_find (hd : d.Grounded) (hnul : 0 ∉ c.root.text)
    (hcache : d.find c.root = .ok (.at P (.dir k)))
    (hlink : ∀ q t, P <+: q → d.get? q ≠ some (.link t)) : c.At P d :=
  ⟨hd.tree, hlink _ _, Disk.way_of_follow hd.tree (hd.base _)
    (Disk.follow_names_of_find hd.tree (hd.base _) hnul hcache)⟩

/-- The directories for a file are made in a cache without links. All that stood in their places, old
files too, are directories then. -/
theorem destination_replaces (hd : d.Grounded) (hnul : 0 ∉ c.root.text)
    (hcache : d.find c.root = .ok (.at P (.dir k)))
    (hlink : ∀ q t, P <+: q → d.get? q ≠ some (.link t)) (hdot : c.root.normal ≠ [Path.dot])
    (hname : c.Admits env name) :
    ∃ d', c.destination env name d = (.ok (c.filePath env name), d') ∧
      d'.isDirectory (c.filePath env name).parent = true ∧
      ∀ s ∈ visited (aboveNames env name), ∃ m, d'.get? (P ++ s) = some (.dir m) := by
  have hsite := at_of_find hd hnul hcache hlink
  have hreads := hname.reads_directory hnul
  have hwinds := Option.isSome_iff_exists.1 hname.inside
  have hwalk : Making.Walkable c (aboveNames env name) :=
    walkable_of_spelling hnul (Disk.text_ne_nil_of_find hnul hcache) hdot hwinds hreads
      (List.prefix_refl _) hname.short
  obtain ⟨d', hmade, hsite', hstood, -⟩ := exists_ensureDirectory_at hwalk hsite hreads
  have htext : (c.filePath env name).parent.text ≠ [] := hreads.text_ne_nil
    (List.append_ne_nil_of_right_ne_nil _ (aboveNames_ne_nil hname.relative name))
  obtain ⟨s, hs⟩ := hwinds
  obtain ⟨m, hfind⟩ := hsite'.find_stood hreads htext hname.short hstood hs
  refine ⟨d', ?_, ?_, hstood⟩
  · rw [destination, prepare_apply, Path.isEmpty, List.isEmpty_eq_false_iff.2 htext,
      if_neg Bool.false_ne_true, hmade]
  · exact Disk.isDirectory_of_find hfind

/-- A cache with an old file where a directory is asked for, and the same below the directory from
which relative paths start. -/
def staleConf : Disk where
  entries := [
    (["cache"], .dir Disk.openMode),
    (["cache", "files"], .dir Disk.openMode),
    (["cache", "files", "base"], .dir Disk.openMode),
    (["cache", "files", "base", "conf"], .file false "old")]
  cwd := ["cache"]

theorem grounded_staleConf : staleConf.Grounded where
  tree := Disk.isTree_of_entries (by decide)
  cwd := ⟨_, rfl⟩

theorem unlinked_staleConf (q : Place) (t : Bytes) : staleConf.get? q ≠ some (.link t) :=
  Disk.get?_ne_link_of_entries (by decide) q t

/-- With a step up and slashes in its spelling, the cache replaces its old file. -/
theorem destination_replaces_stepping :
    staleConf.Grounded ∧ staleConf.find "..//cache/" = .ok (.at ["cache"] (.dir Disk.openMode)) ∧
      (Cache.mk "..//cache/").root.normal ≠ [Path.dot] ∧
      (Cache.mk "..//cache/").Admits "base" "conf/app.ini" ∧
      staleConf.get? ["cache", "files", "base", "conf"] = some (.file false "old") ∧
      ∃ d', (Cache.mk "..//cache/").destination "base" "conf/app.ini" staleConf =
          (.ok "..//cache/files/base/conf/app.ini", d') ∧
        ∃ m, d'.get? ["cache", "files", "base", "conf"] = some (.dir m) := by
  have hcache : staleConf.find (Cache.mk "..//cache/").root =
      .ok (.at ["cache"] (.dir Disk.openMode)) := by decide
  have hdot : (Cache.mk "..//cache/").root.normal ≠ [Path.dot] := by decide
  have hname : (Cache.mk "..//cache/").Admits "base" "conf/app.ini" :=
    ⟨by decide, by decide, by decide⟩
  obtain ⟨d', hmade, -, hdirs⟩ := destination_replaces grounded_staleConf (by decide) hcache
    (fun q t _ => unlinked_staleConf q t) hdot hname
  exact ⟨grounded_staleConf, hcache, hdot, hname, rfl, d', hmade,
    hdirs ["files", "base", "conf"] (by decide)⟩

/-- Spellings of the directory from which relative paths start. -/
def dotted : List Path := ["." , "./", "files/.."]

/-- Spelled as a dot, the cache does not know its old file for its own, so no directory can be made in
its place. -/
theorem destination_does_not_replace :
    staleConf.Grounded ∧ (∀ q t, staleConf.get? q ≠ some (.link t)) ∧
      ∀ root ∈ dotted, staleConf.find root = .ok (.at ["cache"] (.dir Disk.openMode)) ∧
        (Cache.mk root).Admits "base" "conf/app.ini" ∧
        ((Cache.mk root).destination "base" "conf/app.ini" staleConf).1 =
          .error (.store (.noDirectory (root / "files" / "base" / "conf"))) := by
  have hcache : ∀ root ∈ dotted, staleConf.find root = .ok (.at ["cache"] (.dir Disk.openMode)) := by
    decide
  have hshort : ∀ root ∈ dotted,
      ((Cache.mk root).filePath "base" "conf/app.ini").parent.text.length ≤ Disk.maxPath := by
    decide
  have hfails : ∀ root ∈ dotted, ((Cache.mk root).destination "base" "conf/app.ini" staleConf).1 =
      .error (.store (.noDirectory (root / "files" / "base" / "conf"))) := by
    decide +kernel
  exact ⟨grounded_staleConf, unlinked_staleConf, fun root hroot =>
    ⟨hcache root hroot, ⟨by decide, by decide, hshort root hroot⟩, hfails root hroot⟩⟩

end FileCourier.Cache
