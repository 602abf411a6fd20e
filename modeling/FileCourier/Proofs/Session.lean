import FileCourier.Proofs.Download

/-!
# A download over a whole session

What is called on one download, one call after the other, whether a call fails or not. A file that is
written need not reach the disk at once: after each write any number of the last bytes may be held back
until the file is flushed, closed or opened again (`Session`). However many these are, the offset counts
the bytes written since the file was last opened, and the file holds them as soon as nothing is held
back (`Accounts`, `run_accounts`). A session that holds nothing back is the download itself
(`perform_of_prompt`).
-/

namespace FileCourier

/-- A download, and the bytes written to it that have not reached the disk. -/
structure Session where
  download : Download := {}
  held : Bytes := []
  deriving DecidableEq, Repr

namespace Session

/-- What can be called. After a write, so many of the last bytes are held back, or all there are. -/
inductive Call where
  | start (dest : Path)
  | write (s : Bytes) (kept : Nat)
  | flush
  | close
  | restart
  | countAttempt
  deriving DecidableEq, Repr

/-- A call and how it ended. -/
abbrev Event := Call × Except StoreError Unit

/-- Passes bytes on to the file that is open. -/
def pass (s : Session) (t : Bytes) (disk : Disk) : Disk :=
  match s.download.handle with
  | .writing place => disk.append place t
  | _ => disk

/-- The disk after all that is held back has reached it. -/
def settle (s : Session) (disk : Disk) : Disk :=
  if s.held.isEmpty then disk else s.pass s.held disk

def start (s : Session) (dest : Path) (disk : Disk) : Except StoreError Unit × Session × Disk :=
  match s.download.close.start dest (s.settle disk) with
  | (result, download, disk) => (result, ⟨download, []⟩, disk)

def write (s : Session) (t : Bytes) (kept : Nat) (disk : Disk) :
    Except StoreError Unit × Session × Disk :=
  match s.download.write t disk with
  | (.ok (), download, _) =>
    let all := s.held ++ t
    let passed := all.length - kept
    (.ok (), ⟨download, all.drop passed⟩, s.pass (all.take passed) disk)
  | (.error e, download, disk) => (.error e, { s with download }, disk)

def perform (s : Session) (disk : Disk) : Call → Except StoreError Unit × Session × Disk
  | .start dest => s.start dest disk
  | .write t kept => s.write t kept disk
  | .flush => (.ok (), { s with held := [] }, s.settle disk)
  | .close => (.ok (), ⟨s.download.close, []⟩, s.settle disk)
  | .restart => s.start s.download.dest disk
  | .countAttempt => (.ok (), { s with download := s.download.countAttempt }, disk)

/-- Calls one after the other, with how each of them ended. -/
def run (s : Session) (disk : Disk) : List Call → List Event × Session × Disk
  | [] => ([], s, disk)
  | call :: calls =>
    match s.perform disk call with
    | (result, s, disk) =>
      match run s disk calls with
      | (events, s, disk) => ((call, result) :: events, s, disk)

/-- What was written since the file was last opened, after one more call. -/
def written (t : Bytes) : Event → Bytes
  | (.start _, .ok ()) | (.restart, .ok ()) => []
  | (.write u _, .ok ()) => t ++ u
  | _ => t

/-- What was written since the file was last opened. -/
def sinceOpened (events : List Event) : Bytes := events.foldl written []

variable {s s' : Session} {disk disk' : Disk} {t : Bytes} {call : Call}
  {result : Except StoreError Unit} {dest : Path}

/-! ## One call -/

/-- The offset after a call. -/
def offsetAfter (offset : Nat) : Event → Nat
  | (.start _, .ok ()) | (.restart, .ok ()) => 0
  | (.write t _, .ok ()) => offset + t.length
  | _ => offset

/-- The offset counts what was written, and what has reached the file of an open download is all but
what is held back. Nothing is held back from a file that is not open. -/
structure Accounts (s : Session) (disk : Disk) (t : Bytes) : Prop where
  offset : s.download.offset = t.length
  file : ∀ {place}, s.download.handle = .writing place → ∃ x front, front ++ s.held = t ∧
    disk.find s.download.dest = .ok (.at place (.file x front))
  idle : s.download.isOpen = false → s.held = []

theorem accounts_of_holds {d : Download} (h : d.Holds disk t) : Accounts ⟨d, []⟩ disk t where
  offset := h.offset
  file {place} hplace := by
    obtain ⟨place', x, hhandle, hfind⟩ := h.file
    rw [hhandle] at hplace
    cases hplace
    exact ⟨x, t, List.append_nil t, hfind⟩
  idle _ := rfl

theorem accounts_of_not_open {d : Download} (hopen : d.isOpen = false) (h : d.offset = t.length) :
    Accounts ⟨d, []⟩ disk t where
  offset := h
  file hplace := by
    rw [Download.isOpen_of_writing hplace] at hopen
    cases hopen
  idle _ := rfl

/-- The file of an open download holds all that was written as soon as nothing is held back. -/
theorem Accounts.settle {place : Place} (h : s.Accounts disk t)
    (hplace : s.download.handle = .writing place) :
    ∃ x, (s.settle disk).find s.download.dest = .ok (.at place (.file x t)) := by
  obtain ⟨x, front, hfront, hfind⟩ := h.file hplace
  rw [Session.settle]
  split
  · rename_i hheld
    rw [List.isEmpty_iff.1 hheld, List.append_nil] at hfront
    exact ⟨x, hfront ▸ hfind⟩
  · rw [pass, hplace, ← hfront]
    exact ⟨x, Disk.find_append hfind s.held⟩

theorem Accounts.start (h : s.Accounts disk t) (hrun : s.start dest disk = (result, s', disk')) :
    s'.Accounts disk' (written t (.start dest, result)) := by
  rw [Session.start] at hrun
  cases hstart : s.download.close.start dest (s.settle disk) with
  | mk result' after =>
    rw [hstart] at hrun
    cases hrun
    obtain ⟨rfl, hholds, -⟩ | ⟨⟨e, rfl⟩, hafter, -⟩ := Download.start_cases hstart
    · exact accounts_of_holds hholds
    · refine accounts_of_not_open (by rw [hafter]; rfl) ?_
      rw [hafter, Download.close_eq]
      exact h.offset

theorem Accounts.write {u : Bytes} {kept : Nat} (h : s.Accounts disk t)
    (hrun : s.write u kept disk = (result, s', disk')) :
    s'.Accounts disk' (written t (.write u kept, result)) := by
  cases hopen : s.download.isOpen with
  | true =>
    obtain ⟨place, hplace⟩ := Download.exists_writing_of_isOpen hopen
    obtain ⟨x, front, hfront, hfind⟩ := h.file hplace
    rw [Session.write, Download.write, hplace] at hrun
    cases hrun
    refine ⟨?_, fun hplace' => ?_, fun hclosed => ?_⟩
    · have hoffset := h.offset
      simp only [written, List.length_append, hoffset]
    · cases hplace'
      rw [pass, hplace]
      refine ⟨x, _, ?_, Disk.find_append hfind _⟩
      rw [written, List.append_assoc, List.take_append_drop, ← hfront, List.append_assoc]
    · cases hclosed
  | false =>
    obtain ⟨rfl, hwrite⟩ | ⟨d', hwrite, hoffset, -, hclosed⟩ :=
      Download.write_of_not_open hopen u disk
    · rw [Session.write, hwrite, h.idle hopen] at hrun
      cases hrun
      rw [written, List.append_nil, List.append_nil, List.drop_nil, List.take_nil]
      exact accounts_of_not_open hopen h.offset
    · rw [Session.write, hwrite, h.idle hopen] at hrun
      cases hrun
      exact accounts_of_not_open hclosed (hoffset.trans h.offset)

/-- Whatever is called, the offset counts what was written since the file was last opened, and the file
of an open download holds it up to what is held back. -/
theorem Accounts.perform (h : s.Accounts disk t) (hrun : s.perform disk call = (result, s', disk')) :
    s'.Accounts disk' (written t (call, result)) := by
  cases call with
  | start dest => exact h.start hrun
  | write u kept => exact h.write hrun
  | flush =>
    cases hrun
    refine ⟨h.offset, fun hplace => ?_, fun _ => rfl⟩
    obtain ⟨x, hfind⟩ := h.settle hplace
    exact ⟨x, t, List.append_nil t, hfind⟩
  | close =>
    cases hrun
    refine accounts_of_not_open (Download.isOpen_close _) ?_
    rw [Download.close_eq]
    exact h.offset
  | restart =>
    have hafter := h.start hrun
    cases result <;> exact hafter
  | countAttempt =>
    cases hrun
    exact ⟨h.offset, h.file, h.idle⟩

theorem length_written (t : Bytes) (event : Event) :
    (written t event).length = offsetAfter t.length event := by
  obtain ⟨call, result⟩ := event
  cases call <;> cases result <;> first | rfl | exact List.length_append

/-- A call changes the offset by what it writes, or sets it to zero by opening the file. -/
theorem Accounts.offset_perform (h : s.Accounts disk t)
    (hrun : s.perform disk call = (result, s', disk')) :
    s'.download.offset = offsetAfter s.download.offset (call, result) := by
  rw [(h.perform hrun).offset, length_written, h.offset]

theorem attempts_start (hrun : s.start dest disk = (result, s', disk')) :
    s'.download.attempts = s.download.attempts := by
  rw [Session.start] at hrun
  cases hstart : s.download.close.start dest (s.settle disk) with
  | mk result' after =>
    rw [hstart] at hrun
    cases hrun
    obtain ⟨-, -, hattempts⟩ | ⟨-, hafter, -⟩ := Download.start_cases hstart
    · rw [hattempts, Download.close_eq]
    · rw [hafter, Download.close_eq]

theorem attempts_write {kept : Nat} (hrun : s.write t kept disk = (result, s', disk')) :
    s'.download.attempts = s.download.attempts := by
  rw [Session.write] at hrun
  cases hopen : s.download.isOpen with
  | true =>
    obtain ⟨place, hplace⟩ := Download.exists_writing_of_isOpen hopen
    rw [Download.write, hplace] at hrun
    cases hrun
    rfl
  | false =>
    obtain ⟨-, hwrite⟩ | ⟨d', hwrite, -, hattempts, -⟩ :=
      Download.write_of_not_open hopen t disk
    · rw [hwrite] at hrun
      cases hrun
      rfl
    · rw [hwrite] at hrun
      cases hrun
      exact hattempts

theorem attempts_perform (hrun : s.perform disk call = (result, s', disk')) :
    s'.download.attempts = s.download.attempts + [call].count .countAttempt := by
  cases call with
  | start dest => exact attempts_start hrun
  | write t kept => exact attempts_write hrun
  | restart => exact attempts_start hrun
  | flush =>
    cases hrun
    rfl
  | close =>
    cases hrun
    rw [Download.close_eq]
    rfl
  | countAttempt =>
    cases hrun
    rfl

/-- A start that fails leaves the session closed. -/
theorem not_open_of_start_error {e : StoreError}
    (hrun : s.start dest disk = (.error e, s', disk')) : s'.download.isOpen = false := by
  rw [Session.start] at hrun
  cases hstart : s.download.close.start dest (s.settle disk) with
  | mk result' after =>
    rw [hstart] at hrun
    cases hrun
    obtain ⟨hok, -⟩ | ⟨-, hafter, -⟩ := Download.start_cases hstart
    · cases hok
    · rw [hafter]
      rfl

/-- Something that is written to a session that is not open is refused, and no file changes. -/
theorem write_of_not_open {kept : Nat} (hopen : s.download.isOpen = false) (ht : t ≠ [])
    (hrun : s.write t kept disk = (result, s', disk')) :
    result = .error (.notWritten s.download.dest) ∧ disk' = disk ∧
      s'.download.offset = s.download.offset := by
  rw [Session.write] at hrun
  obtain ⟨rfl, -⟩ | ⟨d', hwrite, hoffset, -, -⟩ := Download.write_of_not_open hopen t disk
  · cases ht rfl
  · rw [hwrite] at hrun
    cases hrun
    exact ⟨rfl, rfl, hoffset⟩

/-! ## Nothing held back -/

/-- What a call does to the download alone. -/
def plain (d : Download) (disk : Disk) : Call → Except StoreError Unit × Download × Disk
  | .start dest => d.start dest disk
  | .write t _ => d.write t disk
  | .flush => (.ok (), d, disk)
  | .close => (.ok (), d.close, disk)
  | .restart => d.restart disk
  | .countAttempt => (.ok (), d.countAttempt, disk)

/-- The call leaves nothing held back. -/
def Call.Prompt : Call → Prop
  | .write _ kept => kept = 0
  | _ => True

theorem start_of_none_held (d : Download) (dest : Path) (disk : Disk) :
    Session.start ⟨d, []⟩ dest disk =
      match d.start dest disk with
      | (result, d', disk') => (result, ⟨d', []⟩, disk') := by
  have hclose : d.close.start dest disk = d.start dest disk := by
    rw [Download.close_eq]
    rfl
  rw [← hclose]
  rfl

theorem pass_of_not_open (h : s.download.isOpen = false) (t : Bytes) (disk : Disk) :
    s.pass t disk = disk := by
  cases hhandle : s.download.handle with
  | writing place =>
    rw [Download.isOpen_of_writing hhandle] at h
    cases h
  | closed | broken => rw [pass, hhandle]

/-- A session that holds nothing back does what the download does. -/
theorem perform_of_prompt (d : Download) (disk : Disk) (h : call.Prompt) :
    Session.perform ⟨d, []⟩ disk call =
      match plain d disk call with
      | (result, d', disk') => (result, ⟨d', []⟩, disk') := by
  cases call with
  | start dest => exact start_of_none_held d dest disk
  | restart => exact start_of_none_held d d.dest disk
  | flush | close | countAttempt => rfl
  | write t kept =>
    obtain rfl : kept = 0 := h
    rw [perform, plain, Session.write]
    cases hopen : d.isOpen with
    | true =>
      obtain ⟨place, hplace⟩ := Download.exists_writing_of_isOpen hopen
      simp [Download.write, pass, hplace]
    | false =>
      obtain ⟨rfl, hwrite⟩ | ⟨d', hwrite, -⟩ := Download.write_of_not_open hopen t disk
      · rw [hwrite]
        exact congrArg (fun disk => (_, _, disk)) (pass_of_not_open hopen _ disk)
      · simp only [hwrite]

/-! ## Every sequence of calls -/

theorem accounts_init (disk : Disk) : Accounts {} disk [] := accounts_of_not_open rfl rfl

/-- The account of one call after the other, by induction on the calls. -/
theorem Accounts.run {calls : List Call} {events : List Event} (h : s.Accounts disk t)
    (hrun : s.run disk calls = (events, s', disk')) :
    s'.Accounts disk' (events.foldl written t) ∧
      s'.download.attempts = s.download.attempts + calls.count .countAttempt := by
  induction calls generalizing s disk t events with
  | nil =>
    cases hrun
    exact ⟨h, rfl⟩
  | cons call calls ih =>
    rcases hcall : s.perform disk call with ⟨result, s₁, disk₁⟩
    rcases hrest : s₁.run disk₁ calls with ⟨later, s₂, disk₂⟩
    rw [Session.run, hcall] at hrun
    simp only [hrest] at hrun
    cases hrun
    obtain ⟨haccounts, hattempts⟩ := ih (h.perform hcall) hrest
    refine ⟨haccounts, ?_⟩
    rw [hattempts, attempts_perform hcall, Nat.add_assoc, ← List.count_append]
    rfl

/-- Whatever is called on a session, one call after the other and over any files: while it is open, the
offset counts what was written since the file was last opened, and the file holds exactly that once it
is flushed or closed; the attempts are those that were counted. The next call changes the offset by what
it writes, or sets it to zero by opening the file; writing something to a session that is not open is
refused and changes no file; and a start that fails leaves the session closed. -/
theorem run_accounts {calls : List Call} {events : List Event}
    (hrun : run {} disk calls = (events, s, disk')) :
    (s.download.isOpen = true → s.download.offset = (sinceOpened events).length ∧
      ∀ call ∈ [Call.flush, Call.close], ∃ s₂ disk₂ place x,
        s.perform disk' call = (.ok (), s₂, disk₂) ∧ s₂.download.dest = s.download.dest ∧
          disk₂.find s.download.dest = .ok (.at place (.file x (sinceOpened events)))) ∧
    s.download.attempts = calls.count .countAttempt ∧
    ∀ call result s₂ disk₂, s.perform disk' call = (result, s₂, disk₂) →
      s₂.download.offset = offsetAfter s.download.offset (call, result) ∧
      (∀ t kept, call = .write t kept → t ≠ [] → s.download.isOpen = false →
        result = .error (.notWritten s.download.dest) ∧ disk₂ = disk' ∧
          s₂.download.offset = s.download.offset) ∧
      (∀ e, (∃ dest, call = .start dest) ∨ call = .restart → result = .error e →
        s₂.download.isOpen = false) := by
  obtain ⟨haccounts, hattempts⟩ := (accounts_init disk).run hrun
  refine ⟨fun hopen => ⟨haccounts.offset, fun call hcall => ?_⟩, ?_, ?_⟩
  · obtain ⟨place, hplace⟩ := Download.exists_writing_of_isOpen hopen
    obtain ⟨x, hfind⟩ := haccounts.settle hplace
    obtain rfl | rfl : call = .flush ∨ call = .close := by simpa using hcall
    · exact ⟨_, _, place, x, rfl, rfl, hfind⟩
    · exact ⟨_, _, place, x, rfl, by rw [Download.close_eq], hfind⟩
  · rw [hattempts]
    exact Nat.zero_add _
  · intro call result s₂ disk₂ hcall
    refine ⟨haccounts.offset_perform hcall, ?_, ?_⟩
    · rintro t kept rfl ht hopen
      exact write_of_not_open hopen ht hcall
    · rintro e (⟨dest, rfl⟩ | rfl) rfl
      · exact not_open_of_start_error hcall
      · exact not_open_of_start_error hcall

/-- A directory and a file that were there before. -/
def earlierFiles : Disk := ⟨[(["d"], .dir Disk.openMode), (["f"], .file false "old")], []⟩

/-- Calls some of which fail: a write before any start, a start on a directory, the start after it again,
and then a file that is written, opened again and written in two parts. -/
def mixedCalls : List Call :=
  [.write "x" 0, .start ⟨"d"⟩, .restart, .write "" 0, .countAttempt, .start ⟨"f"⟩, .write "ab" 1,
    .countAttempt, .restart, .write "cd" 1, .write "e" 9]

/-- At the end all that was written is held back, and is in the file once that is flushed. -/
theorem run_accounts_mixed : ∃ events s disk,
    run {} earlierFiles mixedCalls = (events, s, disk) ∧ s.download.isOpen = true ∧
      sinceOpened events = "cde" ∧ s.held = "de" ∧ s.download.offset = 3 ∧ s.download.attempts = 2 ∧
      ∃ s₂ disk₂ place x, s.perform disk .flush = (.ok (), s₂, disk₂) ∧
        disk₂.find s.download.dest = .ok (.at place (.file x "cde")) := by
  have hopen : (run {} earlierFiles mixedCalls).2.1.download.isOpen = true := by decide +kernel
  have hwritten : sinceOpened (run {} earlierFiles mixedCalls).1 = "cde" := by decide +kernel
  have hheld : (run {} earlierFiles mixedCalls).2.1.held = "de" := by decide +kernel
  rcases hrun : run {} earlierFiles mixedCalls with ⟨events, s, disk⟩
  rw [hrun] at hopen hwritten hheld
  obtain ⟨hfile, hattempts, -⟩ := run_accounts hrun
  obtain ⟨hoffset, hsettled⟩ := hfile hopen
  obtain ⟨s₂, disk₂, place, x, hflush, -, hfind⟩ := hsettled .flush List.mem_cons_self
  rw [hwritten] at hoffset hfind
  have hcounted : mixedCalls.count .countAttempt = 2 := by decide
  exact ⟨events, s, disk, rfl, hopen, hwritten, hheld, hoffset, hattempts.trans hcounted, s₂, disk₂,
    place, x, hflush, hfind⟩

end Session

end FileCourier
