import FileCourier.Action

/-!
File operations that stop with a fault when the system refuses them.
-/

namespace FileCourier.Chores

variable {α : Type}

/-- Stops because the system refuses. -/
def refuse (action : Bytes) (paths : List Path) (cause : Errno) : Action Disk α :=
  throw (.system ⟨action, cause, paths⟩)

/-- Makes a directory and those above it that are missing. -/
def makeDirectories (p : Path) : Action Disk Unit := fun d =>
  match d.makeDirectories p with
  | (.ok (), d) => (.ok (), d)
  | (.error e, d) => refuse "cannot create directories" [p] e d

/-- Removes what stands at a path, if anything does. -/
def remove (p : Path) : Action Disk Unit := do
  match (← get).remove p with
  | .error e => refuse "cannot remove" [p] e
  | .ok none => return
  | .ok (some d) => set d

/-- Removes what stands at a path with everything below it. -/
def removeAll (p : Path) : Action Disk Unit := do
  match (← get).emptied p with
  | .error e => refuse "cannot remove all" [p] e
  | .ok none => return
  | .ok (some d) =>
    set d
    remove p

/-- Copies a file and removes it where it was. -/
def moveAsCopy (source target : Path) : Action Disk Unit := do
  match (← get).copyFile source target with
  | .error e => refuse "cannot copy file" [source, target] e
  | .ok d =>
    set d
    remove source

/-- Moves a file, as a copy if it cannot be renamed, because the places are on different devices or for
any other reason. -/
def move (apart : Place → Place → Bool) (source target : Path) : Action Disk Unit := do
  let d ← get
  match if d.crosses apart source target then none else (d.rename source target).toOption with
  | some d => set d
  | none => moveAsCopy source target

/-- Removes what stands at a path, if it can be removed. -/
def discard (p : Path) : Action Disk Unit :=
  modify fun d =>
    match d.remove p with
    | .ok (some d) => d
    | _ => d

/-- Makes the directory in which a file is to stand, unless it is there. The answer is false when it
is missing and must not be made; a path without a directory part needs none. -/
def prepareParent (dir : Path) (make : Bool) : Action Disk Bool := do
  if dir.isEmpty || (← get).isDirectory dir then return true
  else if !make then return false
  else
    makeDirectories dir
    return true

end FileCourier.Chores
