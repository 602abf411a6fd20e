import FileCourier.Action

/-!
The file that a download writes. It is open, or closed, or broken: broken after it could not be
opened or was written to while closed, and until it is opened again.
-/

namespace FileCourier

/-- Whether a download can be written to, and where its bytes go. -/
inductive Handle where
  | closed
  | broken
  | writing (place : Place)
  deriving DecidableEq, Repr

/-- The file of a download, how many bytes were written to it since it was last opened, and how
often it was checked. -/
structure Download where
  dest : Path := ⟨[]⟩
  handle : Handle := .closed
  offset : Nat := 0
  attempts : Nat := 0
  deriving DecidableEq, Repr

namespace Download

def isOpen (d : Download) : Bool :=
  match d.handle with
  | .writing _ => true
  | _ => false

def close (d : Download) : Download :=
  match d.handle with
  | .writing _ => { d with handle := .closed }
  | _ => d

/-- Opens a file and empties it. On failure the file before is closed, the new destination is kept,
and the offset stays. -/
def start (d : Download) (dest : Path) (disk : Disk) : Except StoreError Unit × Download × Disk :=
  match disk.openForWriting dest with
  | .ok (place, disk) => (.ok (), { d with dest, handle := .writing place, offset := 0 }, disk)
  | .error _ => (.error (.notOpened dest), { d with dest, handle := .broken }, disk)

/-- Opens the file again, from its start. -/
def restart (d : Download) (disk : Disk) : Except StoreError Unit × Download × Disk :=
  d.start d.dest disk

/-- Adds bytes to the file. Adding none is possible while the file is closed. -/
def write (d : Download) (s : Bytes) (disk : Disk) : Except StoreError Unit × Download × Disk :=
  match d.handle with
  | .writing place =>
    (.ok (), { d with offset := d.offset + s.length }, disk.append place s)
  | .closed =>
    if s.isEmpty then (.ok (), d, disk)
    else (.error (.notWritten d.dest), { d with handle := .broken }, disk)
  | .broken => (.error (.notWritten d.dest), d, disk)

def countAttempt (d : Download) : Download := { d with attempts := d.attempts + 1 }

/-- An operation on a download as an action on the disk, which gives the download it leaves. -/
def act (r : Disk → Except StoreError Unit × Download × Disk) : Action Disk Download := fun disk =>
  match r disk with
  | (.ok (), d, disk) => (.ok d, disk)
  | (.error e, _, disk) => (.error (.store e), disk)

end Download

end FileCourier
