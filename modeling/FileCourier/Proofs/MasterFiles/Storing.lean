import FileCourier.Proofs.Cache.Taking
import FileCourier.Proofs.MasterFiles.Opening

/-!
# Where a file can be stored

A destination that was asked for is opened when it can be written (`exists_begin`), and a place in
the cache whatever is kept there (`exists_startInCache`).
-/

namespace FileCourier.MasterFiles

open Disk (maxPath)
open FileCourier.Path (Ordinary Relative)

variable {σ : Type} {r : FileRequest} {name : Bytes} {disk disk' : Disk} {dest : Path}

/-- A destination that was asked for can be written: the directory above it is there or can be made,
and it is then a file, or its name is free in a directory. -/
def Writable (r : FileRequest) (disk : Disk) : Prop :=
  ∃ disk', Chores.prepareParent (Path.parent r.dest) r.makeParents disk = (.ok true, disk') ∧
    ((∃ p n, disk'.find r.dest = .ok (.free p n)) ∨
      ∃ p x s, disk'.find r.dest = .ok (.at p (.file x s)))

/-- The file can be stored at the destination that was asked for, or else in the cache. -/
inductive Storable (m : MasterFiles σ) (r : FileRequest) (name : Bytes) (disk : Disk) : Prop
  | asked : r.dest ≠ [] → Writable r disk → Storable m r name disk
  | cached : r.dest = [] → m.cache.Ready disk → Ordinary r.env → Relative ⟨name⟩ →
      (m.cache.filePath r.env name).text.length ≤ maxPath → Storable m r name disk

/-- Where the file is stored. -/
def target (m : MasterFiles σ) (r : FileRequest) (name : Bytes) : Path :=
  if r.dest = [] then m.cache.filePath r.env name else r.dest

theorem exists_act_start {place : Place} (h : disk.openForWriting dest = .ok (place, disk'))
    (d : Download) : ∃ d', Download.act (d.start dest) disk = (.ok d', disk') := by
  refine ⟨{ d with dest, handle := .writing place, offset := 0 }, ?_⟩
  rw [Download.act, Download.start, h]

theorem exists_begin (hdest : r.dest ≠ []) (h : Writable r disk) :
    ∃ d disk', begin r disk = (.ok (some d), disk') := by
  obtain ⟨disk₁, hprepared, hfind⟩ := h
  have hopen : ∃ place disk₂, disk₁.openForWriting r.dest = .ok (place, disk₂) := by
    rcases hfind with ⟨p, n, hfind⟩ | ⟨p, x, s, hfind⟩
    · refine ⟨p ++ [n], disk₁.put (p ++ [n]) (.file false []), ?_⟩
      rw [Disk.openForWriting, hfind]
    · exact ⟨_, _, Disk.openForWriting_of_file hfind⟩
  obtain ⟨place, disk₂, hopen⟩ := hopen
  obtain ⟨d, hstart⟩ := exists_act_start hopen {}
  have hne : r.dest.isEmpty = false := List.isEmpty_eq_false_iff.2 hdest
  refine ⟨d, disk₂, ?_⟩
  rw [begin, hne, if_neg (by decide), Action.bind_ok hprepared, if_pos rfl, Action.bind_ok hstart]
  rfl

/-- A file can be started in the cache, whatever is kept there. -/
theorem exists_startInCache (m : MasterFiles σ) (hready : m.cache.Ready disk)
    (henv : Ordinary r.env) (hname : Relative ⟨name⟩)
    (hshort : (m.cache.filePath r.env name).text.length ≤ maxPath) :
    ∃ d disk', m.startInCache {} r.env name disk = (.ok d, disk') := by
  obtain ⟨ground, P, parent, a, disk₁, hdestination, hpoints⟩ :=
    hready.exists_destination henv hname hshort
  rw [startInCache_apply, hdestination]
  dsimp only
  cases hisDirectory : disk₁.isDirectory (m.cache.filePath r.env name) with
  | false =>
    have hdir : ∀ n, disk₁.get? (parent ++ [a]) ≠ some (.dir n) := fun n hdir => by
      rw [Disk.isDirectory, hpoints.aims.entryAt?_eq, hdir] at hisDirectory
      cases hisDirectory
    obtain ⟨place, disk₂, hopen⟩ := hpoints.aims.exists_openForWriting hdir
    obtain ⟨d, hstart⟩ := exists_act_start hopen {}
    exact ⟨d, disk₂, hstart⟩
  | true =>
    have hdir : ∃ n, disk₁.get? (parent ++ [a]) = some (.dir n) := by
      rw [Disk.isDirectory, hpoints.aims.entryAt?_eq] at hisDirectory
      split at hisDirectory
      · rename_i hdir
        exact ⟨_, hdir⟩
      · cases hisDirectory
    obtain ⟨n, hdir⟩ := hdir
    obtain ⟨disk₂, hremoved, hpoints₂, hnone⟩ := hpoints.exists_removeAll hdir
    obtain ⟨place, disk₃, hopen⟩ := hpoints₂.aims.exists_openForWriting fun n => by simp [hnone]
    obtain ⟨d, hstart⟩ := exists_act_start hopen {}
    refine ⟨d, disk₃, ?_⟩
    rw [if_pos rfl, hremoved]
    exact hstart

/-- Something can be opened for the file before its first piece is stored. -/
inductive Openable (m : MasterFiles σ) (r : FileRequest) (name : Bytes) (disk : Disk) : Prop
  | asked {d disk'} : r.dest ≠ [] → begin r disk = (.ok (some d), disk') → Openable m r name disk
  | cached {d disk'} : r.dest = [] → name ≠ [] →
      m.startInCache {} r.env name disk = (.ok d, disk') → Openable m r name disk

theorem Storable.openable {m : MasterFiles σ} (h : m.Storable r name disk) :
    m.Openable r name disk := by
  cases h with
  | asked hdest hwritable =>
    obtain ⟨d, disk', hbegin⟩ := exists_begin hdest hwritable
    exact .asked hdest hbegin
  | cached hdest hready henv hname hshort =>
    obtain ⟨d, disk', hstart⟩ := exists_startInCache m hready henv hname hshort
    exact .cached hdest hname.text_ne_nil hstart

end FileCourier.MasterFiles
