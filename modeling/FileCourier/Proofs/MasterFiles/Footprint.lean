import FileCourier.Proofs.Cache.Places
import FileCourier.Proofs.MasterFiles.Opening

/-!
# What a download changes on the disk

Once its file is open, a download changes that file and nothing else (`fetch_within`). To open a file
in the cache it may fill places on the way to it, where no directory stands, and change what is at
the place of the file and below (`At.startInCache`).
-/

namespace FileCourier

open Disk (Behind Fills Shrinks Site Within)
open FileCourier.Path (Plain Proper)

variable {σ : Type} {m : MasterFiles σ} {r : FileRequest} {relative env name : Bytes} {dest : Path}
  {t t' : MasterFiles.Tally} {dl dl' : Download} {disk disk' : Disk} {p P : Place} {ns : List Bytes} {n : Nat}

/-- A file that was rewritten is no obstacle on the way anywhere. -/
theorem Disk.Site.of_rewritten {absolute : Bool} {names : List Bytes} {d d' : Disk} {x x' : Bool}
    {s s' : Bytes} (h : Site absolute names P d) (hold : d.get? p = some (.file x s))
    (hnew : d'.get? p = some (.file x' s')) (hwithin : Within (· = p) d d') :
    Site absolute names P d' := by
  have hother {q : Place} {e : Entry} (hq : d.get? q = some e) (he : ∀ x s, e ≠ .file x s) :
      d'.get? q = some e := by
    rw [← hq]
    refine hwithin.get? fun heq => ?_
    rw [heq, hold] at hq
    exact he x s (Option.some.inj hq).symm
  refine h.of_keeps ⟨hwithin.cwd, fun hq => ⟨_, hother hq nofun⟩, fun hq => hother hq nofun⟩ ?_ ?_
  · intro q c hsome
    have hsome' : d.get? (q ++ [c]) ≠ none := by
      by_cases hqc : q ++ [c] = p
      · rw [hqc, hold]
        exact Option.some_ne_none _
      · rwa [hwithin.get? hqc] at hsome
    obtain ⟨m, hdir⟩ := h.tree q c hsome'
    exact ⟨m, hother hdir nofun⟩
  · intro q t hq hlink
    have hqp : q ≠ p := by
      rintro rfl
      rw [hnew] at hlink
      cases hlink
    rw [hwithin.get? hqp] at hlink
    exact h.noLink hq hlink

namespace Download

theorem act_start_cases {result : Except Fault Download}
    (h : act (start dl dest) disk = (result, disk')) :
    (disk' = disk ∧ ∃ e, result = .error e) ∨ ∃ place, disk.openForWriting dest = .ok (place, disk') ∧
      result = .ok { dl with dest, handle := .writing place, offset := 0 } := by
  rw [act, start] at h
  cases hopen : disk.openForWriting dest with
  | error cause =>
    rw [hopen] at h
    cases h
    exact .inl ⟨rfl, _, rfl⟩
  | ok opened =>
    rw [hopen] at h
    cases h
    exact .inr ⟨_, rfl, rfl⟩

end Download

namespace MasterFiles

/-! ## An open file -/

/-- A step of a download that writes at `p`: nothing else is changed, and the next step writes there
too. -/
def Stays (p : Place) (disk : Disk) (step : Except Fault Turn × Disk) : Prop :=
  Within (· = p) disk step.2 ∧ ∀ d, step.1 = .ok (.more d) → d.handle = .writing p

theorem stays_done (p : Place) (disk : Disk) (result : Fetched) :
    Stays p disk (.ok (.done result), disk) := ⟨.refl _ disk, nofun⟩

theorem stays_error (p : Place) (disk : Disk) (e : Fault) : Stays p disk (.error e, disk) :=
  ⟨.refl _ disk, nofun⟩

theorem stays_conclude {s : Bytes} (h : dl.Holds disk s) (hp : dl.handle = .writing p)
    (reply : Message) : Stays p disk (m.conclude dl reply disk) := by
  cases hannounced : announced reply with
  | none =>
    rw [conclude, hannounced]
    exact stays_done p disk _
  | some record =>
    rw [conclude_of_announced hannounced]
    cases hverifies : record.verifies m.digests disk dl.dest with
    | error e =>
      rw [Action.bind_error (Action.ofExcept_error rfl)]
      exact stays_error p disk _
    | ok good =>
      rw [Action.bind_ok (Action.ofExcept_ok rfl)]
      split
      · exact stays_done p disk _
      · obtain ⟨place, x, hhandle, hfind⟩ := h.file
        obtain rfl : p = place := by
          rw [hp] at hhandle
          cases hhandle
          rfl
        have hopen := Disk.openForWriting_of_file hfind
        have hrestart : Download.act dl.countAttempt.restart disk =
            (.ok { dl.countAttempt with handle := .writing p, offset := 0 },
              disk.put p (.file x [])) := by
          have hdest : dl.countAttempt.dest = dl.dest := rfl
          rw [Download.act, Download.restart, Download.start, hdest, hopen]
          rfl
        rw [Action.bind_ok hrestart]
        refine ⟨Disk.within_put (· = p) rfl disk _, fun d hd => ?_⟩
        cases hd
        rfl

theorem stays_respond (m : MasterFiles σ) (r : FileRequest) (relative : Bytes) {s : Bytes}
    (h : dl.Holds disk s) (hp : dl.handle = .writing p) (answer : Except Fault Message) :
    Stays p disk (m.respond r relative dl answer disk) := by
  cases answer with
  | error e =>
    cases e with
    | unreachable => exact stays_done p disk _
    | _ => exact stays_error p disk _
  | ok reply =>
    rw [respond, take]
    cases hdata : reply.bytesOr "data" [] with
    | nil =>
      simp only [takeEnd_of_isOpen m r h.isOpen]
      exact stays_conclude h hp reply
    | cons byte bytes =>
      simp only [takePiece_of_isOpen m r relative h.isOpen]
      cases pieceOf r reply (byte :: bytes) with
      | error e =>
        rw [Action.bind_error (Action.ofExcept_error rfl)]
        exact stays_error p disk _
      | ok piece =>
        have hwrite : Download.act (dl.write piece) disk =
            (.ok { dl with offset := dl.offset + piece.length }, disk.append p piece) := by
          rw [Download.act, Download.write, hp]
        rw [Action.bind_ok (Action.ofExcept_ok rfl), Action.bind_ok hwrite]
        refine ⟨Disk.within_append (· = p) rfl disk piece, fun d hd => ?_⟩
        cases hd
        exact hp

/-- However it ends, an open download changes nothing but its file, which stays a file. -/
theorem fetch_within (m : MasterFiles σ) (r : FileRequest) (relative : Bytes)
    (h : Tracks dest t dl disk) (hp : dl.handle = .writing p) (n : Nat) (beyond : σ) :
    Within (· = p) disk (m.fetch r relative n dl ⟨disk, beyond⟩).2.disk ∧
      ∃ x s, (m.fetch r relative n dl ⟨disk, beyond⟩).2.disk.get? p = some (.file x s) := by
  have file {t : Tally} {dl : Download} {disk : Disk} (h : Tracks dest t dl disk)
      (hp : dl.handle = .writing p) : ∃ x s, disk.get? p = some (.file x s) := by
    obtain ⟨place, x, hhandle, hfind⟩ := h.holds.file
    rw [hp] at hhandle
    cases hhandle
    exact ⟨x, _, Disk.get?_of_find hfind⟩
  induction n generalizing t dl disk beyond with
  | zero => exact ⟨.refl _ disk, file h hp⟩
  | succ n ih =>
    rw [fetch_succ_apply, turn_apply]
    cases m.ask (pieceRequest r relative dl.offset) beyond with
    | mk answer beyond' =>
      dsimp only
      have hstep := respond_of_tracks m r relative h answer
      have hstays := stays_respond m r relative h.holds hp answer
      generalize m.respond r relative dl answer disk = step at hstep hstays
      cases hnext : t.next m.digests r answer with
      | stored | timeout | fault =>
        rw [hnext, Tally.Next.Realised] at hstep
        subst hstep
        exact ⟨.refl _ disk, file h hp⟩
      | more t' =>
        rw [hnext] at hstep
        obtain ⟨dl', disk', rfl, htracks⟩ := hstep
        obtain ⟨hwithin, hhandle⟩ := hstays
        obtain ⟨hrest, hfile⟩ := ih htracks (hhandle dl' rfl) beyond'
        exact ⟨hwithin.trans hrest, hfile⟩

/-- An open file is no obstacle on the way to a site, however its download ends. -/
theorem fetch_site (m : MasterFiles σ) (r : FileRequest) (relative : Bytes) {absolute : Bool}
    {names : List Bytes} (hsite : Site absolute names P disk) (h : Tracks dest t dl disk)
    (hp : dl.handle = .writing p) (n : Nat) (beyond : σ) :
    Site absolute names P (m.fetch r relative n dl ⟨disk, beyond⟩).2.disk ∧
      Within (· = p) disk (m.fetch r relative n dl ⟨disk, beyond⟩).2.disk := by
  obtain ⟨hwithin, x', s, hfile⟩ := fetch_within m r relative h hp n beyond
  obtain ⟨place, x, hplace, hfind⟩ := h.holds.file
  rw [hp] at hplace
  cases hplace
  exact ⟨hsite.of_rewritten (Disk.get?_of_find hfind) hfile hwithin, hwithin⟩

/-- What becomes of a request without a destination: it ends before a file is opened, its file cannot
be opened in the cache, or it goes on with the open file. -/
inductive InCache (m : MasterFiles σ) (r : FileRequest) (relative : Bytes) (w : World σ) : Prop
  | unopened : (m.getFile r w).2.disk = w.disk →
      (∀ path, (m.getFile r w).1 ≠ .ok (.stored path)) → InCache m r relative w
  | refused {reply : Message} {name : Bytes} {s s' : σ} {e : Fault} {disk : Disk} :
      m.ask (pieceRequest r relative 0) s = (.ok reply, s') → nameIn relative reply = some name →
      m.startInCache {} r.env name w.disk = (.error e, disk) →
      (m.getFile r w).1 = .error e → (m.getFile r w).2.disk = disk → InCache m r relative w
  | opened {reply : Message} {name : Bytes} {s s' : σ} {d : Download} {disk : Disk} :
      m.ask (pieceRequest r relative 0) s = (.ok reply, s') → nameIn relative reply = some name →
      m.startInCache {} r.env name w.disk = (.ok d, disk) →
      m.getFile r w = m.fetch r relative m.patience d ⟨disk, w.beyond⟩ → InCache m r relative w

theorem getFile_inCache (m : MasterFiles σ) (w : World σ) (hdest : r.dest = [])
    (hstrip : VirtualPath.strip? r.path = some relative) : InCache m r relative w := by
  have happly : m.getFile r w = m.fetch r relative m.patience {} w := by
    rw [getFile_apply m w hstrip, begin_of_dest_nil hdest]
  have hoffset : ({} : Download).offset = 0 := rfl
  cases hpatience : m.patience with
  | zero =>
    rw [hpatience] at happly
    refine .unopened ?_ fun path => ?_
    · rw [happly]
      rfl
    · rw [happly]
      exact nofun
  | succ n =>
    rw [hpatience] at happly
    cases hask : m.ask (pieceRequest r relative 0) w.beyond with
    | mk answer beyond =>
      have hturn := turn_apply m r relative {} w
      rw [hoffset, hask] at hturn
      cases answer with
      | error e =>
        rw [fetch_succ_apply, hturn] at happly
        cases e <;> exact .unopened (by rw [happly]; rfl) fun path => by rw [happly]; exact nofun
      | ok reply =>
        cases hname : nameIn relative reply with
        | none =>
          simp only [fetch_succ_apply, hturn, respond_unopened m r relative reply w.disk, hname]
            at happly
          exact .unopened (by rw [happly]) fun path => by rw [happly]; exact nofun
        | some name =>
          cases hstart : m.startInCache {} r.env name w.disk with
          | mk started disk =>
            cases started with
            | error e =>
              simp only [fetch_succ_apply, hturn, respond_unopened m r relative reply w.disk, hname,
                hstart] at happly
              exact .refused hask hname hstart (by rw [happly]) (by rw [happly])
            | ok d =>
              have hopened := fetch_unopened n hask hname hstart
              rw [← hpatience] at hopened happly
              exact .opened hask hname hstart (happly.trans hopened)

end MasterFiles

/-! ## A file in the cache -/

/-- What the opening of a file in the cache may change: its place and what is below, and places on
the way to it where no directory stands. -/
def Cache.Touched (P : Place) (ns : List Bytes) (d : Disk) (q : Place) : Prop :=
  (Making.OnWay P ns q ∧ ∀ m, d.get? q ≠ some (.dir m)) ∨ P ++ ns <+: q

/-- What is kept at the place of a file gives way to it: it is removed if it is a directory, and the
file is opened there. However that ends, nothing changes but that place and what is below. -/
theorem Cache.At.start (h : m.cache.At P disk) (hroot : ∀ n ∈ m.cache.root.names, Proper n)
    (hp : Behind m.cache.root.isAbsolute m.cache.root.names ns dest)
    {result : Except Fault Download}
    (hrun : (if disk.isDirectory dest then
        match Chores.removeAll dest disk with
        | (.ok (), disk) => Download.act (Download.start {} dest) disk
        | (.error e, disk) => (.error e, disk)
      else Download.act (Download.start {} dest) disk) = (result, disk')) :
    Within (P ++ ns <+: ·) disk disk' ∧
      ∀ d, result = .ok d → m.cache.At P disk' ∧ d.handle = .writing (P ++ ns) := by
  -- What is opened after a removal is opened where the path led before.
  have start {disk₁ : Disk} (hs : Shrinks disk disk₁) (htree : disk₁.IsTree)
      (hw : Within (P ++ ns <+: ·) disk disk₁)
      (hrun : Download.act (Download.start {} dest) disk₁ = (result, disk')) :
      Within (P ++ ns <+: ·) disk disk' ∧
        ∀ d, result = .ok d → m.cache.At P disk' ∧ d.handle = .writing (P ++ ns) := by
    rcases Download.act_start_cases hrun with ⟨rfl, e, rfl⟩ | ⟨place, hopen, rfl⟩
    · exact ⟨hw, nofun⟩
    · obtain ⟨rfl, hput, hat⟩ := Site.openForWriting h hroot hp hs htree hopen
      refine ⟨hw.trans (hput.mono ?_), fun d hd => ?_⟩
      · rintro q rfl
        exact List.prefix_refl _
      · cases hd
        exact ⟨hat, rfl⟩
  split at hrun
  · cases hremove : Chores.removeAll dest disk with
    | mk removed disk₁ =>
      obtain ⟨hs, htree, hw⟩ := Site.removeAll h hp hremove
      rw [hremove] at hrun
      cases removed with
      | error e =>
        cases hrun
        exact ⟨hw, nofun⟩
      | ok => exact start hs htree hw hrun
  · exact start (.refl _) h.tree (.refl _ _) hrun

theorem Cache.touched_of_fills {d d' d'' : Disk} (h : Fills (Making.OnWay P ns) d d')
    (h' : Within (P ++ ns <+: ·) d' d'') : Within (Cache.Touched P ns d) d d'' :=
  Within.trans (Within.mono h fun _ => .inl) (h'.mono fun _ => .inr)

/-- However it ends, a start in the cache stays at and below the place of the file and on the way to
it; when it succeeds, the file is open at its place. -/
theorem Cache.At.startInCache (h : m.cache.At P disk) (hroot : ∀ n ∈ m.cache.root.names, Proper n)
    (henv : Proper env) (hname : Plain ⟨VirtualPath.dropSlashes name⟩)
    {result : Except Fault Download}
    (hrun : m.startInCache {} env name disk = (result, disk')) :
    Within (Cache.Touched P (Cache.keptNames env name) disk) disk disk' ∧
      ∀ d, result = .ok d →
        m.cache.At P disk' ∧ d.handle = .writing (P ++ Cache.keptNames env name) := by
  have hdestination := h.destination hroot henv hname
  rw [MasterFiles.startInCache_apply] at hrun
  cases hdest : m.cache.destination env name disk with
  | mk prepared disk₁ =>
    rw [hdest] at hrun hdestination
    obtain ⟨hat₁, hfills⟩ := hdestination
    cases prepared with
    | error e =>
      cases hrun
      exact ⟨Cache.touched_of_fills hfills (.refl _ _), nofun⟩
    | ok dest =>
      obtain rfl := Cache.eq_of_prepare hdest
      obtain ⟨hwithin, hopened⟩ := Cache.At.start hat₁ hroot
        (Cache.behind_filePath hroot henv hname) hrun
      exact ⟨Cache.touched_of_fills hfills hwithin, hopened⟩

end FileCourier
