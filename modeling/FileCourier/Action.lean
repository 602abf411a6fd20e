import FileCourier.Fault

/-!
Actions: what is done to the disk and through the network, one step after the other. An action that
fails keeps what it has done before. `World` is the disk together with all that lies beyond it.
-/

namespace FileCourier

/-- An action on a state. A fault keeps the changes made before it. -/
abbrev Action (σ : Type) := ExceptT Fault (StateM σ)

/-- The disk, and all that lies beyond it. -/
structure World (σ : Type) where
  disk : Disk
  beyond : σ

namespace Action

variable {σ τ α : Type}

def perform (a : Action σ α) (s : σ) : Except Fault α × σ := a s

/-- The value of a result, or the fault that `blame` makes of its error. -/
def ofExcept {ε : Type} (blame : ε → Fault) (r : Except ε α) : Action σ α :=
  match r with
  | .ok x => pure x
  | .error e => throw (blame e)

def ofOption (fault : Fault) (r : Option α) : Action σ α :=
  match r with
  | some x => pure x
  | none => throw fault

/-- The result of an action; `none` when the master could not be reached. Every other fault
remains one. -/
def reached (a : Action σ α) : Action σ (Option α) := fun s =>
  match a s with
  | (.ok x, s) => (.ok (some x), s)
  | (.error (.unreachable _ _), s) => (.ok none, s)
  | (.error e, s) => (.error e, s)

/-- The result of an action, with its fault as a value. -/
def outcome (a : Action σ α) : Action σ (Except Fault α) := fun s =>
  match a s with
  | (r, s) => (.ok r, s)

/-- An action on the disk as one on the world. -/
def onDisk (a : Action Disk α) : Action (World σ) α := fun w =>
  match a w.disk with
  | (r, disk) => (r, { w with disk })

def onBeyond (a : Action σ α) : Action (World σ) α := fun w =>
  match a w.beyond with
  | (r, beyond) => (r, { w with beyond })

def looking (f : Disk → α) : Action (World σ) α := fun w => (.ok (f w.disk), w)


end Action

end FileCourier
