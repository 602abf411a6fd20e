import FileCourier.Chores

/-!
Making the directories on the way to a path, component by component. The work is cut into steps, each
of which looks at the disk once or changes it once, so that several makers can take turns on one
disk. A regular file in the way gives place to a directory, but only inside the cache.
-/

namespace FileCourier

/-- What a maker does next with a component. -/
inductive Making.Stage where
  /-- Look whether it is a directory. -/
  | look
  /-- Look whether it is a file that may be removed. -/
  | judge
  | remove
  | make
  | restrict
  /-- It could not be made: look whether somebody else has made it. -/
  | recheck
  deriving DecidableEq, Repr

/-- How far the making of directories has come. -/
inductive Making where
  | finished
  | failed (fault : Fault)
  /-- `here` is being made, and after it the components `rest`. -/
  | at (stage : Making.Stage) (here : Path) (rest : List Bytes)
  deriving DecidableEq, Repr

namespace Making

/-- The next component, seen from the one that is done. -/
def next (here : Path) : List Bytes → Making
  | [] => finished
  | c :: r => .at .look (here / c) r

def start (p : Path) : Making := next ⟨[]⟩ p.components

/-- One step inside the cache `root`. -/
def step (root : Path) (m : Making) (d : Disk) : Making × Disk :=
  match m with
  | finished => (finished, d)
  | failed fault => (failed fault, d)
  | .at stage here rest =>
    match stage with
    | .look => (if d.isDirectory here then next here rest else .at .judge here rest, d)
    | .judge =>
      (.at (if d.isFile here && here.isWithin root then .remove else .make) here rest, d)
    | .remove =>
      (.at .make here rest,
        match d.remove here with
        | .ok (some d) => d
        | _ => d)
    | .make =>
      match d.makeDirectory here with
      | .ok d => (.at .restrict here rest, d)
      | .error _ => (.at .recheck here rest, d)
    | .restrict => (next here rest, d.setMode here Disk.ownerMode)
    | .recheck =>
      match d.unknowable? here with
      | some cause => (failed (.system ⟨"status", cause, [here]⟩), d)
      | none =>
        (if d.isDirectory here then next here rest else failed (.store (.noDirectory here)), d)

/-- No component takes more steps than this. -/
def stepsEach : Nat := 5

def run (root : Path) : Nat → Making → Disk → Making × Disk
  | 0, m, d => (m, d)
  | n + 1, m, d =>
    match step root m d with
    | (m, d) => run root n m d

/-- How the work ends when nobody else is at it, and the disk it leaves. -/
def complete (root p : Path) (d : Disk) : Making × Disk :=
  run root (stepsEach * p.components.length) (start p) d

end Making

end FileCourier
