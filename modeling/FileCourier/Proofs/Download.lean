import FileCourier.Download
import FileCourier.Proofs.Disk.Walk

/-!
# The file of a download holds what was written

An open download counts the bytes of its file (`Holds`). Opening and restarting empty the file,
writing adds to it, and neither restarting nor writing fails.
-/

namespace FileCourier.Download

variable {d d' : Download} {disk disk' : Disk} {s : Bytes}

/-- The download is open, its destination leads to a file with the given content, and it counts
the bytes of that content. -/
structure Holds (d : Download) (disk : Disk) (s : Bytes) : Prop where
  file : ∃ place x, d.handle = .writing place ∧ disk.find d.dest = .ok (.at place (.file x s))
  offset : d.offset = s.length

theorem Holds.isOpen (h : d.Holds disk s) : d.isOpen = true := by
  obtain ⟨place, x, hhandle, -⟩ := h.file
  rw [Download.isOpen, hhandle]

theorem Holds.entryAt? (h : d.Holds disk s) : ∃ x, disk.entryAt? d.dest = some (.file x s) := by
  obtain ⟨place, x, -, hfind⟩ := h.file
  exact ⟨x, Disk.entryAt?_of_find hfind⟩

/-- A download that was started holds nothing. -/
theorem holds_of_start {dest : Path} (h : d.start dest disk = (.ok (), d', disk')) :
    d'.Holds disk' [] ∧ d'.dest = dest ∧ d'.attempts = d.attempts := by
  rw [start] at h
  split at h
  · rename_i place disk'' hopen
    cases h
    obtain ⟨x, hfind⟩ := Disk.find_of_openForWriting hopen
    exact ⟨⟨⟨place, x, rfl, hfind⟩, rfl⟩, rfl, rfl⟩
  · cases h

theorem of_act_ok {op : Disk → Except StoreError Unit × Download × Disk}
    (h : act op disk = (.ok d, disk')) : op disk = (.ok (), d, disk') := by
  rw [act] at h
  split at h
  · rename_i hop
    cases h
    exact hop
  · cases h

/-- An open download can start over. -/
theorem Holds.restart (h : d.Holds disk s) :
    ∃ d' disk', act d.restart disk = (.ok d', disk') ∧ d'.Holds disk' [] ∧
      d'.dest = d.dest ∧ d'.attempts = d.attempts := by
  obtain ⟨place, x, -, hfind⟩ := h.file
  have hopen := Disk.openForWriting_of_file hfind
  have hstart : d.start d.dest disk =
      (.ok (), { d with handle := .writing place, offset := 0 },
        disk.put place (.file x [])) := by
    rw [start, hopen]
  refine ⟨_, _, ?_, holds_of_start hstart⟩
  rw [act, Download.restart, hstart]

/-- What is written to an open download follows what it held. -/
theorem Holds.write (h : d.Holds disk s) (t : Bytes) :
    ∃ d' disk', act (d.write t) disk = (.ok d', disk') ∧ d'.Holds disk' (s ++ t) ∧
      d'.dest = d.dest ∧ d'.attempts = d.attempts := by
  obtain ⟨⟨place, x, hhandle, hfind⟩, hoffset⟩ := h
  refine ⟨{ d with offset := d.offset + t.length }, disk.append place t, ?_, ?_, rfl, rfl⟩
  · rw [act, Download.write, hhandle]
  · refine ⟨⟨place, x, hhandle, Disk.find_append hfind t⟩, ?_⟩
    rw [List.length_append, ← hoffset]

/-- Closing changes nothing but whether the download can be written to. -/
theorem close_eq (d : Download) :
    d.close = { d with handle := if d.isOpen then .closed else d.handle } := by
  cases h : d.handle <;> simp [close, Download.isOpen, h] <;> simp [← h]

theorem isOpen_close (d : Download) : d.close.isOpen = false := by
  cases h : d.handle <;> simp [close, Download.isOpen, h]

theorem exists_writing_of_isOpen (h : d.isOpen = true) : ∃ place, d.handle = .writing place := by
  cases hhandle : d.handle with
  | writing place => exact ⟨place, rfl⟩
  | closed | broken => simp [Download.isOpen, hhandle] at h

theorem isOpen_of_writing {place : Place} (h : d.handle = .writing place) : d.isOpen = true := by
  rw [Download.isOpen, h]

/-- A download that is started holds nothing; one that cannot be started is not open, and no file
changes. -/
theorem start_cases {dest : Path} {result : Except StoreError Unit}
    (h : d.start dest disk = (result, d', disk')) :
    (result = .ok () ∧ d'.Holds disk' [] ∧ d'.attempts = d.attempts) ∨
      (∃ e, result = .error e) ∧ d' = { d with dest, handle := .broken } ∧ disk' = disk := by
  cases result with
  | ok =>
    obtain ⟨hholds, -, hattempts⟩ := holds_of_start h
    exact .inl ⟨rfl, hholds, hattempts⟩
  | error e =>
    rw [start] at h
    split at h
    · cases h
    · cases h
      exact .inr ⟨⟨_, rfl⟩, rfl, rfl⟩

/-- What is written to a download that is not open: nothing at all, or the write fails and changes no
file. -/
theorem write_of_not_open (h : d.isOpen = false) (t : Bytes) (disk : Disk) :
    (t = [] ∧ d.write t disk = (.ok (), d, disk)) ∨
      ∃ d', d.write t disk = (.error (.notWritten d.dest), d', disk) ∧ d'.offset = d.offset ∧
        d'.attempts = d.attempts ∧ d'.isOpen = false := by
  cases hhandle : d.handle with
  | writing place =>
    rw [isOpen_of_writing hhandle] at h
    cases h
  | broken =>
    refine .inr ⟨d, ?_, rfl, rfl, h⟩
    rw [write, hhandle]
  | closed =>
    cases t with
    | nil =>
      refine .inl ⟨rfl, ?_⟩
      rw [write, hhandle]
      rfl
    | cons c t =>
      refine .inr ⟨{ d with handle := .broken }, ?_, rfl, rfl, rfl⟩
      rw [write, hhandle]
      rfl

end FileCourier.Download
