import FileCourier.Proofs.Disk.Removing
import FileCourier.Proofs.MasterFiles.Footprint
import FileCourier.WebFetch

/-!
# Directories that caching makes

Making the directories for a file builds (`Cache.builds_ensureDirectory`), and storing it sheds. So one
file is cached discreetly, whatever the disk is like and however that ends: from the master
(`MasterFiles.discreet_getFile`), from this host (`Cache.discreet_storeLocalFile`) or from a foreign
address (`WebFetch.sheds_store`).
-/

namespace FileCourier

open Disk (Builds Discreet Sheds)

variable {σ : Type} {α β : Type} {d d' : Disk} {path here : Path} {comps : List Bytes} {m : Making}

/-- What is built first and then shed is discreet. -/
theorem discreet_bind (disk : σ → Disk) {x : Action σ α} {f : α → Action σ β} {s : σ}
    (hx : Builds (disk s) (disk (x s).2)) (hf : ∀ a s, Sheds (disk s) (disk (f a s).2)) :
    Discreet (disk s) (disk ((x >>= f) s).2) := by
  cases hrun : x s with
  | mk result s' =>
    rw [hrun] at hx
    cases result with
    | error e =>
      rw [Action.bind_error hrun]
      exact hx.discreet
    | ok a =>
      rw [Action.bind_ok hrun]
      exact hx.discreet.trans_sheds (hf a s')

/-! ## Directories -/

theorem Making.Cleared.builds (h : Cleared path d d') : Builds d d' := by
  rcases h with rfl | ⟨hfile, hremove⟩
  · exact .refl _
  · exact Disk.builds_remove_file hfile hremove

theorem Making.Built.builds (h : Built here comps d m d') : Builds d d' := by
  induction h with
  | done => exact .refl _
  | stuck _ hcleared => exact hcleared.builds
  | found hcleared _ _ ih => exact hcleared.builds.trans ih
  | made _ hcleared hmake _ ih =>
    exact hcleared.builds.trans ((Disk.builds_makeDirectory hmake).trans ih)

namespace Cache

variable {c : Cache}

theorem builds_ensureDirectory (c : Cache) (p : Path) (d : Disk) :
    Builds d (c.ensureDirectory p d).2 := by
  have hbuilt := (Making.built_complete c.root p d).builds
  rw [ensureDirectory]
  split <;> rename_i hcomplete <;> rwa [hcomplete] at hbuilt

theorem builds_prepare (c : Cache) (p : Path) (d : Disk) : Builds d (c.prepare p d).2 := by
  rw [prepare_apply]
  cases p.parent.isEmpty with
  | true => exact .refl d
  | false =>
    have hbuilds := c.builds_ensureDirectory p.parent d
    rw [if_neg Bool.false_ne_true]
    split <;> rename_i hensured <;> rwa [hensured] at hbuilds

theorem discreet_storeLocalFile (c : Cache) (source : Path) (d : Disk) :
    Discreet d (c.storeLocalFile source d).2 := by
  rw [storeLocalFile, Action.get_bind]
  cases hread : d.read source with
  | error => exact (Sheds.refl d).discreet
  | ok found =>
    refine discreet_bind id (c.builds_prepare (c.localPath source.text) d) fun dest d₁ => ?_
    rw [Action.get_bind]
    cases hopen : d₁.openForWriting dest with
    | error => exact .refl d₁
    | ok opened => exact (Disk.sheds_openForWriting hopen).trans (Disk.sheds_append _ _ _)

end Cache

/-! ## Files -/

theorem Chores.sheds_remove (p : Path) (d : Disk) : Sheds d (remove p d).2 := by
  rw [remove, Action.get_bind]
  cases hremove : d.remove p with
  | error => exact .refl d
  | ok removed =>
    cases removed with
    | none => exact .refl d
    | some d₁ => exact Disk.sheds_remove hremove

theorem Chores.sheds_removeAll (p : Path) (d : Disk) : Sheds d (removeAll p d).2 := by
  rw [removeAll, Action.get_bind]
  cases hemptied : d.emptied p with
  | error => exact .refl d
  | ok emptied =>
    cases emptied with
    | none => exact .refl d
    | some d₁ =>
      have hset : (set d₁ : Action Disk Unit) d = (.ok (), d₁) := rfl
      dsimp only
      rw [Action.bind_ok hset]
      exact (Disk.sheds_emptied hemptied).trans (sheds_remove p d₁)

theorem Chores.sheds_moveAsCopy (source target : Path) (d : Disk) :
    Sheds d (moveAsCopy source target d).2 := by
  rw [moveAsCopy, Action.get_bind]
  cases hcopy : d.copyFile source target with
  | error e => exact .refl d
  | ok d₁ =>
    have hset : (set d₁ : Action Disk Unit) d = (.ok (), d₁) := rfl
    dsimp only
    rw [Action.bind_ok hset]
    exact (Disk.sheds_copyFile hcopy).trans (sheds_remove source d₁)

/-- No directory is made where a file is moved, even as a copy. -/
theorem Chores.sheds_move (apart : Place → Place → Bool) {source : Path} (target : Path)
    (hfile : d.NamesFile source) : Sheds d (move apart source target d).2 := by
  rw [move, Action.get_bind]
  cases d.crosses apart source target with
  | true => exact sheds_moveAsCopy source target d
  | false =>
    cases hrename : d.rename source target with
    | error e => exact sheds_moveAsCopy source target d
    | ok d₁ => exact Disk.sheds_rename hrename hfile

theorem Chores.sheds_discard (p : Path) (d : Disk) : Sheds d (discard p d).2 := by
  rw [snd_discard]
  split
  · rename_i hremove
    exact Disk.sheds_remove hremove
  · exact .refl d

theorem Download.sheds_start (dl : Download) (dest : Path) (d : Disk) :
    Sheds d (act (dl.start dest) d).2 := by
  cases hrun : act (dl.start dest) d with
  | mk result d' =>
    rcases act_start_cases hrun with ⟨rfl, -⟩ | ⟨place, hopen, -⟩
    · exact .refl _
    · exact Disk.sheds_openForWriting hopen

theorem Reception.sheds_openFile {r : Reception} {dest : Path} {place : Place}
    (h : r.openFile dest d = some (place, d')) : Sheds d d' := by
  rw [openFile] at h
  split at h
  · cases h
    exact .refl d
  · split at h
    · rename_i hopen
      cases h
      exact Disk.sheds_openForWriting hopen
    · cases h

theorem Reception.sheds_takeBody (r : Reception) (dest : Path) (chunk : Bytes) (d : Disk) :
    Sheds d (r.takeBody dest chunk d).2.2 := by
  rw [takeBody]
  split
  · exact .refl d
  · split
    · rename_i hopen
      exact (sheds_openFile hopen).trans (Disk.sheds_append _ _ _)
    · exact .refl d

theorem Reception.sheds_takeAll (dest : Path) (events : List WebEvent) (r : Reception) (d : Disk) :
    Sheds d (takeAll dest events r d).2.2 := by
  induction events generalizing r d with
  | nil => exact .refl d
  | cons event events ih =>
    cases event with
    | header line => exact ih _ d
    | body chunk =>
      have hbody := r.sheds_takeBody dest chunk d
      rw [takeAll]
      split <;> rename_i hrun <;> rw [hrun] at hbody
      · exact hbody.trans (ih _ _)
      · exact hbody

/-- However it ends, storing what a transfer brings makes no directory. -/
theorem WebFetch.sheds_store (url : Url) (dest : Path) (t : Transfer) (d : Disk) :
    Sheds d (store url dest t d).2 := by
  have htaken := Reception.sheds_takeAll dest t.events {} d
  rw [store, Action.get_bind]
  generalize Reception.takeAll dest t.events {} d = run at htaken
  obtain ⟨taken, r, d₁⟩ := run
  have hset : (set d₁ : Action Disk Unit) d = (.ok (), d₁) := rfl
  have hdiscard {e : Fault} : Sheds d ((Chores.discard dest >>= fun _ => throw e : Action Disk Unit) d₁).2 :=
    htaken.trans (Chores.sheds_discard dest d₁)
  dsimp only
  rw [Action.bind_ok hset]
  generalize (if taken = true then t.broken else some notTaken) = reason
  split
  · exact hdiscard
  · cases reason with
    | some => exact hdiscard
    | none =>
      dsimp only
      rw [Action.get_bind]
      cases hopened : r.openFile dest d₁ with
      | some => exact htaken.trans (Reception.sheds_openFile hopened)
      | none => exact htaken

namespace MasterFiles

variable {m : MasterFiles σ} {r : FileRequest}

theorem discreet_startInCache (m : MasterFiles σ) (dl : Download) (env name : Bytes) (d : Disk) :
    Discreet d (m.startInCache dl env name d).2 := by
  have hbuilds := m.cache.builds_prepare (m.cache.filePath env name) d
  rw [startInCache_apply, Cache.destination]
  generalize m.cache.prepare (m.cache.filePath env name) d = prepared at hbuilds
  obtain ⟨result, d₁⟩ := prepared
  cases result with
  | error => exact hbuilds.discreet
  | ok dest =>
    dsimp only
    split
    · have hremoved := Chores.sheds_removeAll dest d₁
      split <;> rename_i hrun <;> rw [hrun] at hremoved
      · exact hbuilds.discreet.trans_sheds (hremoved.trans (dl.sheds_start dest _))
      · exact hbuilds.discreet.trans_sheds hremoved
    · exact hbuilds.discreet.trans_sheds (dl.sheds_start dest d₁)

/-- However it ends, fetching a file into the cache is discreet. -/
theorem discreet_getFile (m : MasterFiles σ) (hdest : r.dest = []) (w : World σ) :
    Discreet w.disk (m.getFile r w).2.disk := by
  cases hstrip : VirtualPath.strip? r.path with
  | none =>
    rw [getFile_unmarked m w hstrip]
    exact (Sheds.refl _).discreet
  | some relative =>
    cases getFile_inCache m w hdest hstrip with
    | unopened hdisk =>
      rw [hdisk]
      exact (Sheds.refl _).discreet
    | @refused _ name _ _ _ disk _ _ hstart _ hdisk =>
      have hdiscreet := m.discreet_startInCache {} r.env name w.disk
      rwa [hstart, ← hdisk] at hdiscreet
    | @opened _ name _ _ dl disk _ _ hstart hrun =>
      have hdiscreet := m.discreet_startInCache {} r.env name w.disk
      have htracks := tracks_of_startInCache hstart
      obtain ⟨place, x, hhandle, -⟩ := htracks.holds.file
      obtain ⟨hwithin, x', s, hfile⟩ :=
        fetch_within m r relative htracks hhandle m.patience w.beyond
      rw [hstart] at hdiscreet
      rw [hrun]
      exact hdiscreet.trans_sheds (Disk.sheds_of_within hwithin fun k hdir => by
        cases hfile.symm.trans hdir)

end MasterFiles

end FileCourier
