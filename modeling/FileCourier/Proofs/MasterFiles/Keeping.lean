import FileCourier.Proofs.Cache.Kept
import FileCourier.Proofs.MasterFiles.Accepted
import FileCourier.Proofs.MasterFiles.Footprint
import FileCourier.Proofs.MasterFiles.Served

/-!
# Files that are kept

A master that does not move files has each kept under the path it was asked for. What a cache keeps
is then changed in one way only: the names of that path are bound to the bytes that were delivered
(`getFile_keeps`).
-/

namespace FileCourier

open Disk (Site Within)
open FileCourier.Path (Plain Proper)

variable {σ : Type} {m : MasterFiles σ} {r : FileRequest} {relative env name c : Bytes} {path : Path}
  {d : Download} {disk disk' : Disk} {P : Place} {reply : Message} {w : World σ}

theorem Cache.prefix_of_touched {ns : List Bytes} {q : Place} (h : Cache.Touched P ns disk q) :
    q <+: P ++ ns ∨ P ++ ns <+: q := by
  rcases h with ⟨⟨x, -, hx, rfl⟩, -⟩ | hbelow
  · exact .inl ((List.prefix_append_right_inj P).2 hx)
  · exact .inr hbelow

/-- A file that was started in an orderly cache is open at its place, and what the cache kept is
unchanged up to there. -/
theorem Cache.Orderly.startInCache (h : m.cache.Orderly disk)
    (hroot : ∀ n ∈ m.cache.root.names, Proper n) (henv : Proper env)
    (hname : Plain ⟨VirtualPath.dropSlashes name⟩)
    (hrun : m.startInCache {} env name disk = (.ok d, disk')) :
    ∃ P disk₁, m.cache.At P disk₁ ∧ m.cache.files disk₁ = m.cache.files disk ∧
      Within (Cache.Touched P (Cache.keptNames env name) disk₁) disk₁ disk' ∧
      m.cache.At P disk' ∧ d.handle = .writing (P ++ Cache.keptNames env name) := by
  rw [MasterFiles.startInCache_apply] at hrun
  cases hdest : m.cache.destination env name disk with
  | mk prepared disk₂ =>
    rw [hdest] at hrun
    cases prepared with
    | error e => cases hrun
    | ok dest =>
      obtain ⟨P, disk₁, hat₁, hfiles, hat₂, hfills⟩ := h.destination hroot henv hname hdest
      obtain rfl := Cache.eq_of_prepare hdest
      obtain ⟨hwithin, hopened⟩ := Cache.At.start hat₂ hroot
        (Cache.behind_filePath hroot henv hname) hrun
      exact ⟨P, disk₁, hat₁, hfiles, Cache.touched_of_fills hfills hwithin, hopened d rfl⟩

namespace MasterFiles

/-- The master says of a file nothing but that it belongs where it was asked for. -/
def Honest (m : MasterFiles σ) : Prop :=
  ∀ r relative n s reply, (m.ask (pieceRequest r relative n) s).1 = .ok reply →
    reply.bytesOr "dest" [] = [] ∨ reply.bytesOr "dest" [] = relative

/-- The bytes that a `getFile` accepts. -/
def delivered (m : MasterFiles σ) (r : FileRequest) (w : World σ) : Bytes :=
  (tally m.digests r (m.exchanges r w)).content

theorem Honest.nameIn_eq (h : m.Honest) {n : Nat} {s s' : σ}
    (hask : m.ask (pieceRequest r relative n) s = (.ok reply, s'))
    (hname : nameIn relative reply = some name) : name = relative := by
  have hreply : (m.ask (pieceRequest r relative n) s).1 = .ok reply := by rw [hask]
  rcases h r relative n s reply hreply with hnil | heq
  · rw [nameIn, hnil] at hname
    dsimp only at hname
    split at hname
    · cases hname
    · exact (Option.some.inj hname).symm
  · rw [nameIn, heq] at hname
    cases relative with
    | nil =>
      dsimp only at hname
      split at hname
      · cases hname
      · exact (Option.some.inj hname).symm
    | cons byte bytes => exact (Option.some.inj hname).symm

/-- A stored file holds what was delivered. -/
theorem exists_entryAt?_of_stored (hstrip : VirtualPath.strip? r.path = some relative)
    (hdest : r.dest = []) (hhonest : m.Honest)
    (hstored : (m.getFile r w).1 = .ok (.stored path)) : path = m.cache.filePath r.env relative ∧
      ∃ x, (m.getFile r w).2.disk.entryAt? path = some (.file x (m.delivered r w)) := by
  cases getFile_account m w hstrip with
  | unopened _ hunopened => exact absurd hstored (hunopened.not_stored path)
  | @opened dest t hopened hcourse hend =>
    obtain rfl := hcourse.dest_of_stored hstored
    refine ⟨?_, ?_⟩
    · obtain ⟨request, reply, rest, name, hlog, hname, rfl⟩ := opened?_of_dest_nil hdest hopened
      obtain ⟨s, hanswer⟩ := answer_of_mem_exchanges (hlog ▸ List.mem_cons_self)
      rw [hlog] at hcourse
      have hrequest : request = pieceRequest r relative 0 := hcourse.request_eq
      dsimp only at hanswer
      rw [hrequest] at hanswer
      rw [hhonest.nameIn_eq (Prod.ext hanswer.symm rfl) hname]
    · rw [delivered, tally, hcourse.tally_eq]
      exact hend

/-- A course that ends well, and whose every answer serves the content, has taken all of it. -/
theorem Course.content_of_serves {dest : Path} {n : Nat} {t t' : Tally} {log : List Exchange}
    {result : Except Fault Fetched} (h : Course m.digests r relative dest n t log result t')
    (hserved : ∀ x ∈ log, ∀ k, k ≤ c.length → x.request = pieceRequest r relative k →
      ∃ reply, x.answer = .ok reply ∧ ServesFrom m.digests r c name k reply)
    (ht : t.content <+: c) (hstored : result = .ok (.stored path)) : t'.content = c := by
  induction h with
  | impatient | timeout | fault => cases hstored
  | @stored _ t answer hnext =>
    obtain ⟨reply, rfl, hserves⟩ := hserved _ List.mem_cons_self _ ht.length_le rfl
    rcases next_of_servesFrom ht hserves with ⟨hcontent, -⟩ | ⟨piece, -, -, hmore⟩
    · exact hcontent
    · rw [hnext] at hmore
      cases hmore
  | @more n t _ _ answer log _ hnext _ ih =>
    obtain ⟨reply, rfl, hserves⟩ := hserved _ List.mem_cons_self _ ht.length_le rfl
    rcases next_of_servesFrom ht hserves with ⟨-, hend⟩ | ⟨piece, -, hpart, hmore⟩
    · rw [hnext] at hend
      cases hend
    · rw [hnext] at hmore
      cases hmore
      exact ih (fun x hx => hserved x (List.mem_cons_of_mem _ hx)) hpart hstored

/-- Of a content that is served, a stored file holds all. -/
theorem delivered_of_serves (hstrip : VirtualPath.strip? r.path = some relative)
    (hserves : m.Serves r relative c name) (hstored : (m.getFile r w).1 = .ok (.stored path)) :
    m.delivered r w = c := by
  cases getFile_account m w hstrip with
  | unopened _ hunopened => exact absurd hstored (hunopened.not_stored path)
  | opened _ hcourse _ =>
    have hserved : ∀ x ∈ m.exchanges r w, ∀ k, k ≤ c.length →
        x.request = pieceRequest r relative k →
        ∃ reply, x.answer = .ok reply ∧ ServesFrom m.digests r c name k reply := by
      intro x hx k hk hrequest
      obtain ⟨s, hanswer⟩ := answer_of_mem_exchanges hx
      obtain ⟨reply, hreply, hfrom⟩ := hserves k s hk
      rw [hrequest, hreply] at hanswer
      exact ⟨reply, hanswer, hfrom⟩
    rw [delivered, tally, hcourse.tally_eq]
    exact hcourse.content_of_serves hserved List.nil_prefix hstored

/-- A file that was stored in an orderly cache is kept there under its names, and nothing else has
changed but what was in its way. -/
theorem getFile_keeps (h : m.cache.Orderly w.disk) (hroot : ∀ n ∈ m.cache.root.names, Proper n)
    (hhonest : m.Honest) (hdest : r.dest = []) (henv : Proper r.env)
    (hstrip : VirtualPath.strip? r.path = some relative)
    (hname : Plain ⟨VirtualPath.dropSlashes relative⟩)
    (hstored : (m.getFile r w).1 = .ok (.stored path)) :
    m.cache.Orderly (m.getFile r w).2.disk ∧ m.cache.files (m.getFile r w).2.disk =
      (m.cache.files w.disk).bind (Cache.keptNames r.env relative) (m.delivered r w) := by
  obtain ⟨rfl, x, hentry⟩ := exists_entryAt?_of_stored hstrip hdest hhonest hstored
  cases getFile_inCache m w hdest hstrip with
  | unopened _ hnone => exact absurd hstored (hnone _)
  | refused _ _ _ hfailed _ =>
    rw [hfailed] at hstored
    cases hstored
  | @opened _ name _ _ d disk hask hnamed hstart hrun =>
    obtain rfl := hhonest.nameIn_eq hask hnamed
    obtain ⟨P, disk₁, hat₁, hfiles, hwithin, hat, hhandle⟩ :=
      h.startInCache hroot henv hname hstart
    obtain ⟨hat', hfetched⟩ : m.cache.At P (m.getFile r w).2.disk ∧
        Within (· = P ++ Cache.keptNames r.env name) disk (m.getFile r w).2.disk := by
      rw [hrun]
      exact fetch_site m r name hat (tracks_of_startInCache hstart) hhandle m.patience w.beyond
    refine ⟨hat'.orderly, ?_⟩
    -- The path leads to the place at which the file was opened.
    obtain ⟨q, hfound⟩ := Disk.find_of_entryAt? hentry
    have hbehind := Cache.behind_filePath hroot henv hname
    have hq : q = P ++ Cache.keptNames r.env name :=
      Site.place_eq hat' hbehind.proper hbehind.ne_nil (Disk.follow_of_find hbehind.reads hfound)
    rw [← hfiles]
    refine hat₁.files_of_touched hat' ?_ (hq ▸ Disk.get?_of_find hfound)
    refine (hwithin.mono fun q => Cache.prefix_of_touched).trans (hfetched.mono fun q hq => ?_)
    exact .inl (hq ▸ List.prefix_refl _)

end MasterFiles

end FileCourier
