import FileCourier.Proofs.Disk.Removing
import FileCourier.Proofs.WebVerdict

/-!
# Fetches that fail before anything is written

A fetch that fails removes what its destination names, whether or not the transfer had opened it. Where
a file stood that the transfer never wrote to, that file is lost, or the link that led to it
(`fetch_discards`).
-/

namespace FileCourier.WebFetch

variable {σ : Type} {url : Url} {dest : Path} {t : Transfer} {d d₁ : Disk} {r : Reception}
  {taken opens : Bool} {place : Place} {x : Bool} {s : Bytes}

/-- A transfer that ends with an error page or breaks off ends in its verdict, and what stands at the
destination is removed. -/
theorem store_of_failure (htaken : Reception.takeAll dest t.events {} d = (taken, r, d₁))
    (htold : r.told = t.last opens)
    (hfailure : (if taken then t.broken else some notTaken) = t.failure? opens)
    (hfails : 400 ≤ (t.last opens).1 ∨ t.failure? opens ≠ none) (url : Url) :
    store url dest t d = (t.verdict opens url dest, (Chores.discard dest d₁).2) := by
  rw [Transfer.verdict, ← htold, ← hfailure]
  by_cases hstatus : 400 ≤ r.status
  · rw [if_pos (show 400 ≤ r.told.1 from hstatus)]
    exact store_of_isError htaken (decide_eq_true hstatus)
  · rw [if_neg (show ¬400 ≤ r.told.1 from hstatus)]
    rw [← htold, ← hfailure] at hfails
    obtain ⟨reason, hreason⟩ := Option.ne_none_iff_exists'.1 (hfails.resolve_left hstatus)
    rw [hreason]
    exact store_of_broken htaken (decide_eq_false hstatus) hreason

/-- What is left where nothing but an empty body went into a file: its content, or nothing if it was
opened. -/
theorem exists_takeAll_empty (hfind : d.find dest = .ok (.at place (.file x s)))
    (hbody : Reception.body t.events 0 = []) : ∃ r d₁,
      Reception.takeAll dest t.events {} d = (true, r, d₁) ∧ r.told = t.last true ∧
      Disk.Within (· = place) d d₁ ∧
      ∃ y u, d₁.get? place = some (.file y u) ∧ (u = s ∨ u = []) := by
  have hempty : Reception.Holds dest place d {} d [] := .nothing rfl rfl
  obtain ⟨r, d₁, htaken, htold, hholds⟩ :=
    hempty.takeAll (Disk.openForWriting_of_file hfind) t.events
  have hseen : t.seen true = t.events := Reception.taken_true t.events 0
  refine ⟨r, d₁, htaken, ?_, ?_⟩
  · rw [htold, Transfer.last, hseen]
    rfl
  · rw [show ({} : Reception).status = 0 from rfl, hbody] at hholds
    generalize hcontent : [] ++ [] = content at hholds
    cases hholds with
    | nothing _ hd =>
      subst hd
      exact ⟨.refl _ _, x, s, Disk.get?_of_find hfind, .inl rfl⟩
    | file _ hwritten hkept =>
      exact ⟨hkept, _, _, Disk.get?_of_find hwritten, .inr hcontent.symm⟩

/-- A fetch that fails although no byte was to be written to the file at its destination ends with the
status or with the reason for which the transfer broke off. Still, what the destination names is gone:
the file, or a link that led to it. Nothing else changes, but that the file behind such a link is empty
if it was opened. -/
theorem fetch_discards (web : Web σ) (url : Url) (dest : Path) (w : World σ) (t : Transfer) (beyond : σ)
    (hdisk : w.disk.Grounded) (hfind : w.disk.find dest = .ok (.at place (.file x s)))
    (hweb : web (requestOf url) w.beyond = (.ok t, beyond))
    (hbody : Reception.body t.events 0 = [])
    (hfails : 400 ≤ Reception.finalStatus t.events 0 ∨ t.broken ≠ none) :
    ∃ cause q e d, fetch web url dest w = (.error (.web cause), ⟨d, beyond⟩) ∧
      t.verdict true url dest = .error (.web cause) ∧
      w.disk.locateName (Disk.systemText dest) = .ok (.at q e) ∧ (q = place ∨ ∃ l, e = .link l) ∧
      d.get? q = none ∧ Disk.Within (fun p => p = q ∨ p = place) w.disk d ∧
      (q ≠ place → ∃ y u, d.get? place = some (.file y u) ∧ (u = s ∨ u = [])) := by
  obtain ⟨r, d₁, htaken, htold, hwithin, y, u, hleft, hu⟩ := exists_takeAll_empty hfind hbody
  have hseen : t.seen true = t.events := Reception.taken_true t.events 0
  have hfailure : t.failure? true = t.broken := by rw [Transfer.failure?, hseen, if_pos rfl]
  have hstatus : (t.last true).1 = Reception.finalStatus t.events 0 := by
    rw [Transfer.last, hseen]
    exact Reception.fst_heard t.events _
  have hstore := store_of_failure htaken htold hfailure.symm (by rwa [hstatus, hfailure]) url
  obtain ⟨cause, hcause⟩ : ∃ cause, t.verdict true url dest = .error (.web cause) := by
    rw [Transfer.verdict, hfailure, hstatus]
    by_cases herror : 400 ≤ Reception.finalStatus t.events 0
    · exact ⟨_, if_pos herror⟩
    · obtain ⟨reason, hreason⟩ := Option.ne_none_iff_exists'.1 (hfails.resolve_left herror)
      rw [if_neg herror, hreason]
      exact ⟨_, rfl⟩
  obtain ⟨q, e, hq, he, hplace, hnamed⟩ := hdisk.exists_named hfind
  have hfile := Disk.get?_of_find hfind
  have hnoDir : Disk.Entry.isDir e = false := by
    rcases hplace with rfl | ⟨l, rfl⟩
    · cases he.symm.trans hfile
      rfl
    · rfl
  obtain ⟨e', he', hnoDir'⟩ : ∃ e', d₁.get? q = some e' ∧ Disk.Entry.isDir e' = false := by
    rcases hplace with rfl | ⟨l, rfl⟩
    · exact ⟨_, hleft, rfl⟩
    · refine ⟨.link l, ?_, rfl⟩
      rw [hwithin.get?, he]
      rintro rfl
      cases he.symm.trans hfile
  obtain ⟨-, hremove⟩ := hnamed (hwithin.keeps_of_file hfile) he' hnoDir'
  obtain ⟨hname, -⟩ := hnamed (Disk.keeps_refl _) he hnoDir
  refine ⟨cause, q, e, d₁.drop q, ?_, hcause, hname, hplace, Disk.get?_drop_self hq, ?_, fun hne => ?_⟩
  · have hasked : Action.onBeyond (web (requestOf url)) w = (.ok t, { w with beyond }) := by
      rw [Action.onBeyond, hweb]
    rw [fetch, Action.bind_ok hasked]
    refine Action.onDisk_apply ?_
    rw [hstore, hcause, Chores.snd_discard, hremove]
  · exact (hwithin.mono fun _ => .inr).trans (Disk.within_drop (.inl rfl) d₁)
  · exact ⟨y, u, (Disk.get?_drop_of_ne hne.symm).trans hleft, hu⟩

/-- A page that is not there, with a body of its own. -/
def absentPage : Transfer where
  events := [.header "HTTP/1.1 404 Not Found\r\n", .body "no such page"]
  broken := none

theorem grounded_stale : stale.disk.Grounded := ⟨Disk.isTree_of_entries (by decide), _, rfl⟩

/-- The old file is gone, and nothing has come in its place. -/
theorem fetch_discards_absentPage :
    stale.disk.Grounded ∧ stale.disk.find ⟨"page"⟩ = .ok (.at ["page"] (.file true "old")) ∧
      Reception.body absentPage.events 0 = [] ∧ 400 ≤ Reception.finalStatus absentPage.events 0 ∧
      ∃ cause d, fetch (fun _ => pure absentPage) (Url.parse "http://host/page") ⟨"page"⟩ stale =
        (.error (.web cause), ⟨d, ()⟩) ∧ d.get? ["page"] = none := by
  have hfind : stale.disk.find ⟨"page"⟩ = .ok (.at ["page"] (.file true "old")) := by decide
  have hbody : Reception.body absentPage.events 0 = [] := by decide
  have hstatus : 400 ≤ Reception.finalStatus absentPage.events 0 := by decide
  obtain ⟨cause, q, e, d, hrun, -, hname, -, hgone, -⟩ :=
    fetch_discards (fun _ => pure absentPage) (Url.parse "http://host/page") ⟨"page"⟩ stale absentPage ()
      grounded_stale hfind rfl hbody (.inl hstatus)
  have hnamed : stale.disk.locateName (Disk.systemText ⟨"page"⟩) =
      .ok (.at ["page"] (.file true "old")) := by decide
  cases hnamed.symm.trans hname
  exact ⟨grounded_stale, hfind, hbody, hstatus, cause, d, hrun, hgone⟩

/-- A transfer that never opened the file at its destination still takes it away. -/
theorem fetch_takes_earlier_away :
    stale.disk.find ⟨"page"⟩ = .ok (.at ["page"] (.file true "old")) ∧
      (∃ r, Reception.takeAll ⟨"page"⟩ absentPage.events {} stale.disk = (true, r, stale.disk)) ∧
      ∃ d, fetch (fun _ => pure absentPage) (Url.parse "http://host/page") ⟨"page"⟩ stale =
          (.error (.web (.status 404 "http://host/page" "Not Found")), ⟨d, ()⟩) ∧
        d.find ⟨"page"⟩ = .ok (.free [] "page") :=
  ⟨by decide, ⟨_, rfl⟩, ⟨[], []⟩, rfl, by decide⟩

end FileCourier.WebFetch
