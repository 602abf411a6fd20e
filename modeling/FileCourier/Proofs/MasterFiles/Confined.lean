import FileCourier.Proofs.Disk.Directories
import FileCourier.Proofs.MasterFiles.Footprint

/-!
# Downloads that stay where they belong

As long as the master sends names that do not lead up or away, a file that goes into the cache stays
below the directory of its environment (`guarded_getFile_inCache`). One that goes to a destination
behind a directory stays below that (`guarded_getFile_below`), whatever the master sends.
-/

namespace FileCourier

open Disk (Behind Below Site Within siteGuard)
open Making (OnWay)
open FileCourier.Path (Plain Proper)

variable {σ : Type} {m : MasterFiles σ} {r : FileRequest} {relative env name : Bytes} {path : Path}
  {absolute : Bool} {names ns : List Bytes} {d d' d'' : Disk} {P root : Place} {w : World σ}
  {reply : Message}

/-! ## In the cache -/

namespace Cache

/-- Nothing changes but below the directory of an environment, and on the way to it where no directory
stands. -/
def Confined (P : Place) (env : Bytes) (d d' : Disk) : Prop :=
  Within (fun q => Below (P ++ filesNames env) q ∨
    (OnWay P (filesNames env) q ∧ ∀ m, d.get? q ≠ some (.dir m))) d d'

theorem Confined.trans (h : Confined P env d d') (h' : Confined P env d' d'') :
    Confined P env d d'' := by
  refine ⟨h'.cwd.trans h.cwd, fun {q} hq => ?_⟩
  have hfirst := h.get? hq
  refine (h'.get? fun hq' => hq ?_).trans hfirst
  rwa [hfirst] at hq'

/-- The way to a place below the directory of an environment leaves nothing else to change. -/
theorem confined_of_touched (hne : ns ≠ [])
    (h : Within (Touched P (filesNames env ++ ns) d) d d') : Confined P env d d' := by
  have hbelow {ns : List Bytes} (hne : ns ≠ []) :
      Below (P ++ filesNames env) (P ++ (filesNames env ++ ns)) := by
    rw [← List.append_assoc]
    exact Disk.below_append _ hne
  refine h.mono fun q hq => ?_
  rcases hq with ⟨⟨x, hx, hxns, rfl⟩, hdir⟩ | ⟨rest, rfl⟩
  · rcases Disk.prefix_append_cases hxns with hway | ⟨y, hy, -, rfl⟩
    · exact .inr ⟨⟨x, hx, hway, rfl⟩, hdir⟩
    · exact .inl (hbelow hy)
  · rw [List.append_assoc, List.append_assoc]
    exact .inl (hbelow (List.append_ne_nil_of_left_ne_nil hne rest))

/-- The cache at a place, with everything outside the directory of an environment as it is. -/
def guard (c : Cache) (P : Place) (env : Bytes) : Action.Guard Disk where
  holds := c.At P
  changes := Confined P env
  refl d := Within.refl _ d
  trans := .trans

end Cache

namespace MasterFiles

/-- Names that the master sends lead neither up nor away: the place of a file in the cache is a plain
path behind any slashes, when it was asked for by such a path, and a listed path is plain. -/
structure Tame (m : MasterFiles σ) : Prop where
  dest : ∀ {r relative n s reply}, Plain ⟨VirtualPath.dropSlashes relative⟩ →
    (m.ask (pieceRequest r relative n) s).1 = .ok reply →
    reply.bytesOr "dest" [] = [] ∨ Plain ⟨VirtualPath.dropSlashes (reply.bytesOr "dest" [])⟩
  listed : ∀ {request s reply}, (m.ask request s).1 = .ok reply →
    ∀ p ∈ reply.list "return", Plain ⟨p⟩

theorem Tame.plain_nameIn (h : m.Tame) {n : Nat} {s s' : σ}
    (hask : m.ask (pieceRequest r relative n) s = (.ok reply, s'))
    (hrelative : Plain ⟨VirtualPath.dropSlashes relative⟩) (hname : nameIn relative reply = some name) :
    Plain ⟨VirtualPath.dropSlashes name⟩ := by
  have hreply : (m.ask (pieceRequest r relative n) s).1 = .ok reply := by rw [hask]
  have hdest := h.dest hrelative hreply
  rw [nameIn] at hname
  split at hname
  · split at hname
    · cases hname
    · cases hname
      exact hrelative
  · rename_i hne
    cases hname
    exact hdest.resolve_left hne

theorem guarded_getFile_inCache (htame : m.Tame) (hroot : ∀ n ∈ m.cache.root.names, Proper n)
    (henv : Proper r.env) (hdest : r.dest = []) (hstrip : VirtualPath.strip? r.path = some relative)
    (hrelative : Plain ⟨VirtualPath.dropSlashes relative⟩) :
    Action.Guarded (m.cache.guard P r.env).inWorld (m.getFile r) := by
  intro w hat
  change Cache.Confined P r.env w.disk _ ∧ ∀ a, _ → m.cache.At P _
  have confined {name : Bytes} {d : Disk} (hname : Plain ⟨VirtualPath.dropSlashes name⟩)
      (h : Within (Cache.Touched P (Cache.keptNames r.env name) w.disk) w.disk d) :
      Cache.Confined P r.env w.disk d := Cache.confined_of_touched hname.names_ne_nil h
  cases getFile_inCache m w hdest hstrip with
  | unopened hdisk =>
    rw [hdisk]
    exact ⟨.refl _ _, fun _ _ => hat⟩
  | refused hask hnamed hstart hfailed hdisk =>
    have hname := htame.plain_nameIn hask hrelative hnamed
    obtain ⟨hwithin, -⟩ := Cache.At.startInCache hat hroot henv hname hstart
    rw [hdisk, hfailed]
    exact ⟨confined hname hwithin, nofun⟩
  | @opened _ name _ _ dl disk hask hnamed hstart hrun =>
    have hname := htame.plain_nameIn hask hrelative hnamed
    obtain ⟨hwithin, hopened⟩ := Cache.At.startInCache hat hroot henv hname hstart
    obtain ⟨hat₁, hhandle⟩ := hopened dl rfl
    obtain ⟨hat', hfetched⟩ := fetch_site m r relative hat₁ (tracks_of_startInCache hstart) hhandle
      m.patience w.beyond
    rw [hrun]
    refine ⟨confined hname (hwithin.trans (hfetched.mono ?_)), fun _ _ => hat'⟩
    rintro q rfl
    exact .inr (List.prefix_refl _)

/-! ## At a destination -/

theorem guarded_start (dl : Download) (hp : Behind absolute names ns path) :
    Action.Guarded (siteGuard absolute names root) (Download.act (dl.start path)) := by
  intro d h
  cases hrun : Download.act (dl.start path) d with
  | mk result d' =>
    rcases Download.act_start_cases hrun with ⟨rfl, e, rfl⟩ | ⟨place, hopen, rfl⟩
    · exact ⟨.refl _ _, nofun⟩
    · obtain ⟨rfl, hsite, hwithin⟩ := Site.openForWriting_below h hp hopen
      refine ⟨hwithin.mono fun q hq => ?_, fun _ _ => hsite⟩
      rw [hq]
      exact Disk.below_append root hp.ne_nil

theorem guarded_begin (hp : Behind absolute names ns ⟨r.dest⟩) :
    Action.Guarded (siteGuard absolute names root) (begin r) := by
  obtain ⟨above, c, rfl⟩ : ∃ above c, ns = above ++ [c] :=
    ⟨_, _, (List.dropLast_concat_getLast hp.ne_nil).symm⟩
  have hreads := hp.reads
  rw [← List.append_assoc] at hreads
  rw [begin]
  split
  · exact Action.guarded_pure _
  · refine (Disk.guarded_prepareParent hreads.parent (fun c' hc' => hp.proper c' ?_) _).bind
      fun _ ready _ => ?_
    · exact List.mem_append_left _ hc'
    · split
      · exact (guarded_start {} hp).map _
      · exact Action.guarded_pure _

theorem guarded_getFile_below (hp : Behind absolute names ns ⟨r.dest⟩) :
    Action.Guarded (siteGuard absolute names root).inWorld (m.getFile r) := by
  cases hstrip : VirtualPath.strip? r.path with
  | none => exact Action.guarded_of_unchanged fun w => by rw [getFile_unmarked m w hstrip]
  | some relative =>
    intro w h
    have hdest : r.dest ≠ [] := fun hnil => by
      have hnames := hp.reads.names_eq
      rw [hnil] at hnames
      exact hp.ne_nil (List.append_eq_nil_iff.1 hnames.symm).2
    obtain ⟨hchanges, hholds⟩ := guarded_begin hp w.disk h
    rw [getFile_apply m w hstrip]
    cases hbegin : begin r w.disk with
    | mk begun disk =>
      rw [hbegin] at hchanges hholds
      cases begun with
      | error e => exact ⟨hchanges, nofun⟩
      | ok begun =>
        cases begun with
        | none => exact ⟨hchanges, fun _ _ => hholds _ rfl⟩
        | some dl =>
          have htracks := tracks_of_begin hdest hbegin
          have hsite : Site absolute names root disk := hholds _ rfl
          obtain ⟨place, x, hhandle, hfind⟩ := htracks.holds.file
          rw [htracks.dest_eq] at hfind
          have hplace : place = root ++ ns :=
            hsite.place_eq hp.proper hp.ne_nil (Disk.follow_of_find hp.reads hfind)
          obtain ⟨hsite', hfetched⟩ := fetch_site m r relative hsite htracks hhandle m.patience w.beyond
          refine ⟨hchanges.trans (hfetched.mono fun q hq => ?_), fun _ _ => hsite'⟩
          rw [hq, hplace]
          exact Disk.below_append root hp.ne_nil

end MasterFiles

end FileCourier
