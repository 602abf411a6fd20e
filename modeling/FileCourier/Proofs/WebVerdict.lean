import FileCourier.Proofs.Disk.Linkless
import FileCourier.Proofs.Disk.Removing
import FileCourier.Proofs.WebFetch

/-!
# How a fetch ends

A file that cannot be opened stops a transfer at the first chunk that would have to be stored; one that
can takes all that arrives. What is then told of the last response, why the transfer broke off, and
whether the file can be opened, decides how a fetch ends (`fetch_ends`). When it fails, what it has
written is gone.
-/

namespace FileCourier

variable {σ : Type}

namespace Reception

variable {r : Reception} {dest : Path} {d : Disk}

/-- What is taken of that which arrives: all of it if the file can be opened, else no chunk that would
have to be stored and nothing after it. -/
def taken (opens : Bool) : List WebEvent → Int → List WebEvent
  | [], _ => []
  | .header line :: rest, status => .header line :: taken opens rest (lineStatus status line)
  | .body chunk :: rest, status =>
    if opens || 400 ≤ status || chunk.isEmpty then .body chunk :: taken opens rest status else []

theorem taken_true (events : List WebEvent) (status : Int) : taken true events status = events := by
  induction events generalizing status with
  | nil => rfl
  | cons event events ih =>
    cases event with
    | header line => rw [taken, ih]
    | body chunk => rw [taken, ih, Bool.true_or, Bool.true_or, if_pos rfl]

/-- A file that cannot be opened is not changed, and nothing is stored. -/
theorem takeAll_unopened {e : Errno} (events : List WebEvent) (hopen : d.openForWriting dest = .error e)
    (hplace : r.place = none) : ∃ r',
      takeAll dest events r d = (decide (taken false events r.status = events), r', d) ∧
      r'.told = heard (taken false events r.status) r.told ∧ r'.place = none := by
  induction events generalizing r with
  | nil => exact ⟨r, rfl, rfl, hplace⟩
  | cons event events ih =>
    cases event with
    | header line =>
      obtain ⟨r', hrun, htold, hplace'⟩ := ih ((place_takeHeader r line).trans hplace)
      rw [status_takeHeader] at hrun htold
      refine ⟨r', ?_, ?_, hplace'⟩
      · rw [takeAll, hrun, taken]
        simp
      · rw [taken, heard_header, htold]
    | body chunk =>
      have hopened : r.openFile dest d = none := by
        rw [openFile, hplace]
        dsimp only
        rw [hopen]
      by_cases htaken : (400 ≤ r.status || chunk.isEmpty) = true
      · obtain ⟨r', hrun, htold, hplace'⟩ := ih hplace
        refine ⟨r', ?_, ?_, hplace'⟩
        · have hbody : r.takeBody dest chunk d = (true, r, d) := by
            rw [takeBody, hopened]
            split
            · rfl
            · rename_i herror
              rw [isError, Bool.not_eq_true] at herror
              rw [herror, Bool.false_or] at htaken
              rw [htaken]
          rw [takeAll, hbody]
          simp [hrun, taken, htaken]
        · rw [taken, Bool.false_or, htaken, if_pos rfl]
          exact htold
      · refine ⟨r, ?_, ?_, hplace⟩
        · rw [Bool.not_eq_true, Bool.or_eq_false_iff] at htaken
          rw [takeAll, takeBody, isError, htaken.1, hopened, if_neg Bool.false_ne_true]
          simp [taken, htaken.1, htaken.2]
        · rw [taken, Bool.false_or, if_neg htaken]
          rfl

end Reception

/-! ## What is seen of a transfer -/

namespace Transfer

/-- What is seen of a transfer into a file that can be opened, or not. -/
def seen (t : Transfer) (opens : Bool) : List WebEvent := Reception.taken opens t.events 0

/-- The last status that is seen, and the reason given with it. -/
def last (t : Transfer) (opens : Bool) : Int × Bytes := Reception.heard (t.seen opens) (0, [])

/-- Why a transfer breaks off, if it does: a chunk was not taken, or something happened to it. -/
def failure? (t : Transfer) (opens : Bool) : Option Bytes :=
  if t.seen opens = t.events then t.broken else some WebFetch.notTaken

/-- How the fetch ends that makes this transfer. -/
def verdict (t : Transfer) (opens : Bool) (url : Url) (dest : Path) : Except Fault Unit :=
  if 400 ≤ (t.last opens).1 then
    .error (.web (.status (t.last opens).1 url.withoutCredentials (t.last opens).2))
  else
    match t.failure? opens with
    | some reason => .error (.web (.broken url.withoutCredentials reason))
    | none => if opens then .ok () else .error (.web (.unwritable url.withoutCredentials dest.text))

theorem verdict_eq_ok_iff (t : Transfer) (opens : Bool) (url : Url) (dest : Path) :
    t.verdict opens url dest = .ok () ↔
      (t.last opens).1 < 400 ∧ t.failure? opens = none ∧ opens = true := by
  rw [verdict]
  split
  · rename_i hstatus
    exact ⟨nofun, fun h => absurd hstatus (Int.not_le.2 h.1)⟩
  · rename_i hstatus
    cases t.failure? opens with
    | some reason => exact ⟨nofun, nofun⟩
    | none => cases opens <;> simp [Int.not_le.1 hstatus]

theorem verdict_eq_status_iff (t : Transfer) (opens : Bool) (url : Url) (dest : Path) :
    (∃ code shown reason, t.verdict opens url dest = .error (.web (.status code shown reason))) ↔
      400 ≤ (t.last opens).1 := by
  rw [verdict]
  split
  · rename_i hstatus
    exact ⟨fun _ => hstatus, fun _ => ⟨_, _, _, rfl⟩⟩
  · rename_i hstatus
    refine ⟨fun ⟨_, _, _, h⟩ => ?_, fun h => absurd h hstatus⟩
    cases hfailure : t.failure? opens with
    | some reason =>
      rw [hfailure] at h
      cases h
    | none =>
      rw [hfailure] at h
      cases opens <;> cases h

end Transfer

/-! ## What is left on the disk -/

namespace Disk

variable {d d₀ d₁ : Disk} {dest : Path} {place : Place} {x : Bool} {s : Bytes}

/-- A file that was made or written at a path can be removed there. -/
theorem cleared_discard_written (hd : d.Grounded)
    (hlink : ∀ q t, d.locate false (systemText dest) ≠ .ok (.at q (.link t)))
    (hopen : d.openForWriting dest = .ok (place, d₀)) (hwithin : Within (· = place) d d₁)
    (hfind : d₁.find dest = .ok (.at place (.file x s))) :
    Cleared dest d (Chores.discard dest d₁).2 := by
  obtain ⟨spot, _, hspot, rfl, -, hfile⟩ := exists_of_openForWriting hopen
  have hdir : ∀ p k, spot ≠ .at p (.dir k) := by
    rintro p k rfl
    obtain ⟨_, _, heq⟩ := hfile _ (get?_of_find hspot)
    cases heq
  obtain ⟨parent, c, hplace, -, haims⟩ := hd.exists_aims (no_nul_readPart dest)
    (find_readPart d dest ▸ hspot) hdir hlink
  rw [hplace] at hwithin hfind hfile
  have hstands := get?_of_find hfind
  have hkeeps : Keeps d d₁ := by
    refine ⟨hwithin.cwd, fun {p m} hp => ⟨m, ?_⟩, fun {p t} hp => ?_⟩
    · rw [hwithin.get?, hp]
      rintro rfl
      obtain ⟨_, _, heq⟩ := hfile _ hp
      cases heq
    · rw [hwithin.get?, hp]
      rintro rfl
      obtain ⟨_, _, heq⟩ := hfile _ hp
      cases heq
  have haims₁ := haims hkeeps fun t ht => by
    rw [hstands] at ht
    cases ht
  have hremove := haims₁.remove_file hstands
  rw [remove_readPart] at hremove
  obtain ⟨-, -, -, hgone⟩ := locate_ne_of_remove hremove fun q t hlocate => by
    have hlocate' := haims₁.locate_at hstands false
    cases hlocate.symm.trans hlocate'
  rw [Chores.snd_discard, hremove]
  exact .inr ⟨⟨_, hwithin.trans (within_drop (s := (· = parent ++ [c])) rfl d₁)⟩, hgone⟩

end Disk

namespace WebFetch

variable {url : Url} {dest : Path} {t : Transfer} {d d₁ : Disk} {r : Reception} {taken : Bool}
  {reason : Bytes}

theorem store_of_isError (htaken : Reception.takeAll dest t.events {} d = (taken, r, d₁))
    (h : r.isError = true) : store url dest t d =
      (.error (.web (.status r.status url.withoutCredentials r.reason)),
        (Chores.discard dest d₁).2) := by
  rw [store, Action.get_bind, htaken]
  have hset : (set d₁ : Action Disk Unit) d = (.ok (), d₁) := rfl
  dsimp only
  rw [Action.bind_ok hset, h]
  rfl

theorem store_of_broken (htaken : Reception.takeAll dest t.events {} d = (taken, r, d₁))
    (h : r.isError = false) (hbroken : (if taken then t.broken else some notTaken) = some reason) :
    store url dest t d =
      (.error (.web (.broken url.withoutCredentials reason)), (Chores.discard dest d₁).2) := by
  rw [store, Action.get_bind, htaken]
  have hset : (set d₁ : Action Disk Unit) d = (.ok (), d₁) := rfl
  dsimp only
  rw [Action.bind_ok hset, h, hbroken]
  rfl

theorem store_of_whole (url : Url) (htaken : Reception.takeAll dest t.events {} d = (taken, r, d₁))
    (h : r.isError = false) (hwhole : (if taken then t.broken else some notTaken) = none) :
    store url dest t d =
      match r.openFile dest d₁ with
      | some (_, d') => (.ok (), d')
      | none => (.error (.web (.unwritable url.withoutCredentials dest.text)), d₁) := by
  rw [store, Action.get_bind, htaken]
  have hset : (set d₁ : Action Disk Unit) d = (.ok (), d₁) := rfl
  dsimp only
  rw [Action.bind_ok hset, h, hwhole, if_neg Bool.false_ne_true]
  dsimp only
  rw [Action.get_bind]
  cases r.openFile dest d₁ <;> rfl

/-- A transfer of which so much is taken ends in its verdict. -/
theorem exists_store_verdict (opens : Bool)
    (htaken : Reception.takeAll dest t.events {} d = (taken, r, d₁)) (htold : r.told = t.last opens)
    (hfailure : (if taken then t.broken else some notTaken) = t.failure? opens)
    (hcleared : Disk.Cleared dest d (Chores.discard dest d₁).2)
    (hopen : if opens then ∃ place d' x, r.openFile dest d₁ = some (place, d') ∧
        d'.find dest = .ok (.at place (.file x (Reception.body t.events 0))) ∧
        Disk.Within (· = place) d d'
      else r.openFile dest d₁ = none ∧ d₁ = d) (url : Url) :
    ∃ d', store url dest t d = (t.verdict opens url dest, d') ∧
      (t.verdict opens url dest = .ok () → ∃ place x,
        d'.find dest = .ok (.at place (.file x (Reception.body t.events 0))) ∧
        Disk.Within (· = place) d d') ∧
      (t.verdict opens url dest ≠ .ok () → Disk.Cleared dest d d') := by
  rw [Transfer.verdict, ← htold, ← hfailure]
  by_cases hstatus : 400 ≤ r.status
  · rw [if_pos (show 400 ≤ r.told.1 from hstatus)]
    exact ⟨_, store_of_isError htaken (decide_eq_true hstatus), nofun, fun _ => hcleared⟩
  · have herror : r.isError = false := decide_eq_false hstatus
    rw [if_neg (show ¬400 ≤ r.told.1 from hstatus)]
    cases hreason : (if taken then t.broken else some notTaken) with
    | some reason =>
      exact ⟨_, store_of_broken htaken herror hreason, nofun, fun _ => hcleared⟩
    | none =>
      have hstore := store_of_whole url htaken herror hreason
      cases opens with
      | true =>
        obtain ⟨place, d', x, hopened, hfind, hwithin⟩ := hopen
        rw [hopened] at hstore
        exact ⟨d', hstore, fun _ => ⟨place, x, hfind, hwithin⟩, fun h => absurd rfl h⟩
      | false =>
        obtain ⟨hopened, rfl⟩ := hopen
        rw [hopened] at hstore
        exact ⟨_, hstore, nofun, fun _ => .inl rfl⟩

/-- What is stored of a transfer ends in the verdict on a file that can be opened, or not. -/
theorem store_ends (url : Url) (t : Transfer) (hdisk : d.Grounded)
    (hlink : ∀ q l, d.locate false (Disk.systemText dest) ≠ .ok (.at q (.link l))) :
    ∃ d', store url dest t d = (t.verdict (d.openForWriting dest).isOk url dest, d') ∧
      (t.verdict (d.openForWriting dest).isOk url dest = .ok () → ∃ place x,
        d'.find dest = .ok (.at place (.file x (Reception.body t.events 0))) ∧
        Disk.Within (· = place) d d') ∧
      (t.verdict (d.openForWriting dest).isOk url dest ≠ .ok () → Disk.Cleared dest d d') := by
  cases hopen : d.openForWriting dest with
  | error e =>
    obtain ⟨r, htaken, htold, hplace⟩ :=
      Reception.takeAll_unopened (r := {}) t.events hopen rfl
    have hopened : r.openFile dest d = none := by
      rw [Reception.openFile, hplace]
      dsimp only
      rw [hopen]
    refine exists_store_verdict false htaken htold ?_ (Disk.cleared_discard hlink) ⟨hopened, rfl⟩ url
    rw [Transfer.failure?]
    simp only [decide_eq_true_eq]
    rfl
  | ok opened =>
    obtain ⟨place, d₀⟩ := opened
    have hempty : Reception.Holds dest place d {} d [] := .nothing rfl rfl
    obtain ⟨r, d₁, htaken, htold, hholds⟩ := hempty.takeAll hopen t.events
    obtain ⟨d', x, hopened, hfind, hwithin⟩ := hholds.openFile hopen
    have hseen : t.seen true = t.events := Reception.taken_true t.events 0
    refine exists_store_verdict true htaken ?_ ?_ ?_ ⟨place, d', x, hopened, hfind, hwithin⟩ url
    · rw [htold, Transfer.last, hseen]
      rfl
    · rw [Transfer.failure?, hseen, if_pos rfl, if_pos rfl]
    · generalize [] ++ Reception.body t.events _ = s at hholds
      cases hholds with
      | nothing _ hd =>
        rw [hd]
        exact Disk.cleared_discard hlink
      | file _ hwritten hkept =>
        exact Disk.cleared_discard_written hdisk hlink hopen hkept hwritten

/-- A fetch ends well just when the last status that is seen is no error, the transfer does not break
off and the file can be opened; then the file holds the chunks that are no part of an error page. It
fails with the status just when that is an error, else with the reason for which the transfer broke off,
and if there is none because the file cannot be opened. Then nothing is left of what was written: either
the disk is as it was, or nothing stands at the destination. -/
theorem fetch_ends (web : Web σ) (url : Url) (dest : Path) (w : World σ) (t : Transfer) (beyond : σ)
    (hdisk : w.disk.Grounded)
    (hlink : ∀ q l, w.disk.locate false (Disk.systemText dest) ≠ .ok (.at q (.link l)))
    (hweb : web (requestOf url) w.beyond = (.ok t, beyond)) :
    ∃ opens d, opens = (w.disk.openForWriting dest).isOk ∧
      fetch web url dest w = (t.verdict opens url dest, ⟨d, beyond⟩) ∧
      (t.verdict opens url dest = .ok () ↔
        (t.last opens).1 < 400 ∧ t.failure? opens = none ∧ opens = true) ∧
      ((∃ code shown reason, t.verdict opens url dest = .error (.web (.status code shown reason))) ↔
        400 ≤ (t.last opens).1) ∧
      (t.verdict opens url dest = .ok () → ∃ place x,
        d.find dest = .ok (.at place (.file x (Reception.body t.events 0))) ∧
        Disk.Within (· = place) w.disk d) ∧
      (t.verdict opens url dest ≠ .ok () → Disk.Cleared dest w.disk d) := by
  obtain ⟨d, hrun, hfile, hcleared⟩ := store_ends url t hdisk hlink
  refine ⟨_, d, rfl, ?_, t.verdict_eq_ok_iff _ url dest, t.verdict_eq_status_iff _ url dest, hfile,
    hcleared⟩
  have hasked : Action.onBeyond (web (requestOf url)) w = (.ok t, { w with beyond }) := by
    rw [Action.onBeyond, hweb]
  rw [fetch, Action.bind_ok hasked]
  exact Action.onDisk_apply hrun

/-- A disk with a file where a fetch is to put another one. -/
def stale : World Unit := ⟨⟨[(["page"], .file true "old")], []⟩, ()⟩

/-- An answer that asks for a login, and the answer after that. -/
def secondAnswer : Transfer where
  events := [.header "HTTP/1.1 401 Unauthorized\r\n", .body "denied", .header "HTTP/1.1 200 OK\r\n",
    .body "ab", .body "c"]
  broken := none

/-- Only the second answer is stored, in place of the old file. -/
theorem fetch_ends_secondAnswer :
    stale.disk.Grounded ∧
      (∀ q l, stale.disk.locate false (Disk.systemText ⟨"page"⟩) ≠ .ok (.at q (.link l))) ∧
      ∃ d place x, fetch (fun _ => pure secondAnswer) (Url.parse "http://host/page") ⟨"page"⟩ stale =
        (.ok (), ⟨d, ()⟩) ∧ d.find ⟨"page"⟩ = .ok (.at place (.file x "abc")) := by
  have hgrounded : stale.disk.Grounded := ⟨Disk.isTree_of_entries (by decide), _, rfl⟩
  have hlink : ∀ q l,
      stale.disk.locate false (Disk.systemText ⟨"page"⟩) ≠ .ok (.at q (.link l)) := by
    intro q l hlocate
    have hfile : stale.disk.locate false (Disk.systemText ⟨"page"⟩) =
        .ok (.at ["page"] (.file true "old")) := by decide
    cases hfile.symm.trans hlocate
  obtain ⟨opens, d, rfl, hrun, hiff, -, hfile, -⟩ :=
    fetch_ends (fun _ => pure secondAnswer) (Url.parse "http://host/page") ⟨"page"⟩ stale secondAnswer ()
      hgrounded hlink rfl
  have hverdict := hiff.2 (by decide)
  obtain ⟨place, x, hfind, -⟩ := hfile hverdict
  exact ⟨hgrounded, hlink, d, place, x, hverdict ▸ hrun, hfind⟩

end WebFetch

end FileCourier
