import FileCourier.Proofs.Action
import FileCourier.Proofs.Disk.Changes
import FileCourier.Proofs.Disk.Walk
import FileCourier.WebFetch

/-!
# What a transfer leaves on the disk

The chunks of a transfer that are no part of an error page make up its body. A transfer that ends well,
and not with an error page, leaves a file with just that body (`WebFetch.exists_store`).
-/

namespace FileCourier

namespace Reception

variable {r r' : Reception} {dest : Path} {place : Place} {d d' disk : Disk} {s : Bytes}
  {events : List WebEvent} {chunk : Bytes}

/-- The status after a line of a header. -/
def lineStatus (status : Int) (line : Bytes) : Int := (takeHeader { status } line).status

/-- The status after what arrives. -/
def finalStatus : List WebEvent → Int → Int
  | [], status => status
  | .header line :: rest, status => finalStatus rest (lineStatus status line)
  | .body _ :: rest, status => finalStatus rest status

/-- The status of the last response and the reason given with it. -/
def told (r : Reception) : Int × Bytes := (r.status, r.reason)

/-- What is told after what arrives. -/
def heard : List WebEvent → Int × Bytes → Int × Bytes
  | [], last => last
  | .header line :: rest, (status, reason) => heard rest (takeHeader { status, reason } line).told
  | .body _ :: rest, last => heard rest last

/-- The chunks that are no part of an error page, one behind the other. -/
def body : List WebEvent → Int → Bytes
  | [], _ => []
  | .header line :: rest, status => body rest (lineStatus status line)
  | .body chunk :: rest, status => (if 400 ≤ status then [] else chunk) ++ body rest status

theorem status_takeHeader (r : Reception) (line : Bytes) :
    (r.takeHeader line).status = lineStatus r.status line := by
  rw [lineStatus, takeHeader, takeHeader]
  split
  · rfl
  · split <;> rfl

theorem told_takeHeader (r : Reception) (line : Bytes) :
    (r.takeHeader line).told =
      (takeHeader { status := r.told.1, reason := r.told.2 } line).told := by
  rw [told, told, takeHeader, takeHeader]
  split
  · rfl
  · split <;> rfl

theorem heard_header (r : Reception) (line : Bytes) (events : List WebEvent) :
    heard (.header line :: events) r.told = heard events (r.takeHeader line).told := by
  rw [told_takeHeader]
  rfl

theorem fst_heard (events : List WebEvent) (last : Int × Bytes) :
    (heard events last).1 = finalStatus events last.1 := by
  induction events generalizing last with
  | nil => rfl
  | cons event events ih =>
    cases event with
    | header line => exact (ih _).trans (congrArg (finalStatus events) (status_takeHeader _ line))
    | body chunk => exact ih last

theorem place_takeHeader (r : Reception) (line : Bytes) : (r.takeHeader line).place = r.place := by
  rw [takeHeader]
  split
  · rfl
  · split <;> rfl

/-- What has been received is in the file, which is made with the first chunk. Nothing else changes. -/
inductive Holds (dest : Path) (place : Place) (before : Disk) (r : Reception) (d : Disk) :
    Bytes → Prop
  | nothing : r.place = none → d = before → Holds dest place before r d []
  | file {x : Bool} {s : Bytes} : r.place = some place →
      d.find dest = .ok (.at place (.file x s)) → Disk.Within (· = place) before d →
      Holds dest place before r d s

theorem Holds.takeHeader {before : Disk} (h : Holds dest place before r d s) (line : Bytes) :
    Holds dest place before (r.takeHeader line) d s := by
  cases h with
  | nothing hplace hd => exact .nothing ((place_takeHeader r line).trans hplace) hd
  | file hplace hfind hwithin =>
    exact .file ((place_takeHeader r line).trans hplace) hfind hwithin

/-- The file is open, or can be opened. -/
theorem Holds.openFile {before : Disk} (h : Holds dest place before r d s)
    (hopen : before.openForWriting dest = .ok (place, disk)) :
    ∃ d' x, r.openFile dest d = some (place, d') ∧ d'.find dest = .ok (.at place (.file x s)) ∧
      Disk.Within (· = place) before d' := by
  cases h with
  | nothing hplace hd =>
    subst hd
    obtain ⟨x, hfind⟩ := Disk.find_of_openForWriting hopen
    refine ⟨disk, x, ?_, hfind, Disk.within_of_openForWriting hopen⟩
    rw [Reception.openFile, hplace]
    dsimp only
    rw [hopen]
  | file hplace hfind hwithin =>
    refine ⟨d, _, ?_, hfind, hwithin⟩
    rw [Reception.openFile, hplace]

theorem Holds.takeBody {before : Disk} (h : Holds dest place before r d s)
    (hopen : before.openForWriting dest = .ok (place, disk)) (chunk : Bytes) :
    ∃ r' d', r.takeBody dest chunk d = (true, r', d') ∧ r'.told = r.told ∧
      Holds dest place before r' d' (s ++ if 400 ≤ r.status then [] else chunk) := by
  rw [Reception.takeBody]
  by_cases herror : r.isError = true
  · have hstatus : 400 ≤ r.status := of_decide_eq_true herror
    rw [if_pos herror, if_pos hstatus, List.append_nil]
    exact ⟨r, d, rfl, rfl, h⟩
  · have hstatus : ¬400 ≤ r.status := fun hle => herror (decide_eq_true hle)
    obtain ⟨d', x, hopened, hfind, hwithin⟩ := h.openFile hopen
    rw [if_neg herror, if_neg hstatus, hopened]
    exact ⟨_, _, rfl, rfl, .file rfl (Disk.find_append hfind chunk)
      (hwithin.trans (Disk.within_append (· = place) rfl d' chunk))⟩

/-- All that arrives is taken. -/
theorem Holds.takeAll {before : Disk} (h : Holds dest place before r d s)
    (hopen : before.openForWriting dest = .ok (place, disk)) (events : List WebEvent) :
    ∃ r' d', Reception.takeAll dest events r d = (true, r', d') ∧ r'.told = heard events r.told ∧
      Holds dest place before r' d' (s ++ body events r.status) := by
  induction events generalizing r d s with
  | nil =>
    refine ⟨r, d, rfl, rfl, ?_⟩
    rwa [body, List.append_nil]
  | cons event events ih =>
    cases event with
    | header line =>
      obtain ⟨r', d', htaken, htold, hholds⟩ := ih (h.takeHeader line)
      rw [← heard_header] at htold
      rw [status_takeHeader] at hholds
      exact ⟨r', d', htaken, htold, hholds⟩
    | body chunk =>
      obtain ⟨r₁, d₁, hbody, htold₁, hholds₁⟩ := h.takeBody hopen chunk
      obtain ⟨r', d', htaken, htold, hholds⟩ := ih hholds₁
      have hstatus₁ : r₁.status = r.status := congrArg Prod.fst htold₁
      rw [htold₁] at htold
      rw [hstatus₁] at hholds
      refine ⟨r', d', ?_, htold, ?_⟩
      · rw [Reception.takeAll, hbody]
        exact htaken
      · rwa [body, ← List.append_assoc]

end Reception

/-- A transfer delivers a content: it does not break off, it does not end with an error page, and the
content is its body. -/
structure Transfer.Delivers (t : Transfer) (content : Bytes) : Prop where
  whole : t.broken = none
  accepted : Reception.finalStatus t.events 0 < 400
  body_eq : Reception.body t.events 0 = content

/-- What a transfer delivers is in the file, if that can be opened. -/
theorem WebFetch.exists_store {t : Transfer} {content : Bytes} {dest : Path} {place : Place}
    {d d₁ : Disk} (url : Url) (h : t.Delivers content)
    (hopen : d.openForWriting dest = .ok (place, d₁)) :
    ∃ d' x, WebFetch.store url dest t d = (.ok (), d') ∧
      d'.find dest = .ok (.at place (.file x content)) := by
  have hempty : Reception.Holds dest place d {} d [] := .nothing rfl rfl
  obtain ⟨r, d₂, htaken, htold, hholds⟩ := hempty.takeAll hopen t.events
  obtain ⟨d', x, hopened, hfind, -⟩ := hholds.openFile hopen
  have hstatus : r.status = Reception.finalStatus t.events 0 :=
    (congrArg Prod.fst htold).trans (Reception.fst_heard t.events _)
  have herror : r.isError = false :=
    decide_eq_false (Int.not_le.2 (hstatus ▸ h.accepted))
  rw [List.nil_append, show ({} : Reception).status = 0 from rfl, h.body_eq] at hfind
  refine ⟨d', x, ?_, hfind⟩
  rw [WebFetch.store, Action.get_bind, htaken]
  have hset : (set d₂ : Action Disk Unit) d = (.ok (), d₂) := rfl
  dsimp only
  rw [Action.bind_ok hset, herror, h.whole, if_neg Bool.false_ne_true, if_pos rfl]
  dsimp only
  rw [Action.get_bind, hopened]
  rfl

end FileCourier
