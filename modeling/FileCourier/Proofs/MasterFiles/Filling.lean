import FileCourier.Proofs.Cache.Settling
import FileCourier.Proofs.Courier.Caching

/-!
# Files that come into a cache one after the other

A master that serves a file whenever it is reached may be out of reach for any request. Whatever came
into the cache before, the next file is then stored or timed out (`getFile_filled`), and the next
directory is made (`Cache.ensureDirectory_filled`).
-/

namespace FileCourier

open Disk (maxPath)
open LocalRoots (listed)
open FileCourier.Path (Ordinary Plain Reads Relative Spells weight)

variable {σ : Type} {c : Cache} {env content : Bytes} {ns : List Bytes} {P : Place}
  {d d' d₁ : Disk}

theorem Path.relative_listed (h : ∀ n ∈ ns, Ordinary n) (hne : ns ≠ []) : Relative ⟨listed ns⟩ := by
  have hsegments := fun n hn => (h n hn).proper.segment
  refine ⟨Path.isAbsolute_listed hsegments, ?_, Path.listed_ne_nil hsegments hne,
    Path.getLast?_listed hsegments⟩
  rwa [Path.names_listed hsegments]

namespace Cache

/-- The cache can take what lies along names in the directory of an environment: these are names that
a file can have, and the path is not too long. -/
structure Accepts (c : Cache) (env : Bytes) (ns : List Bytes) : Prop where
  ordinary_env : Ordinary env
  ne_nil : ns ≠ []
  ordinary : ∀ n ∈ ns, Ordinary n
  short : (c.filePath env (listed ns)).text.length ≤ maxPath

namespace Accepts

variable (h : c.Accepts env ns)
include h

theorem relative : Relative ⟨listed ns⟩ := Path.relative_listed h.ordinary h.ne_nil

theorem dropSlashes_eq : VirtualPath.dropSlashes (listed ns) = listed ns :=
  dropSlashes_of_relative h.relative

theorem names_eq : (Path.mk (listed ns)).names = ns :=
  Path.names_listed fun n hn => (h.ordinary n hn).proper.segment

theorem keptNames_eq : keptNames env (listed ns) = filesNames env ++ ns := by
  rw [keptNames, h.dropSlashes_eq, h.names_eq]

theorem plain : Plain ⟨VirtualPath.dropSlashes (listed ns)⟩ := by
  rw [h.dropSlashes_eq]
  exact ⟨h.relative.isAbsolute_eq, fun n hn => (h.relative.ordinary n hn).proper,
    h.relative.text_ne_nil, h.relative.last⟩

theorem spells : Spells c.root.isAbsolute (c.root.names ++ (filesNames env ++ ns))
    (c.filePath env (listed ns)) := by
  have hspells := spells_filePath h.ordinary_env h.relative h.short
  rwa [h.names_eq, List.append_assoc] at hspells

theorem place_ne_nil : (c.filePath env (listed ns)).text ≠ [] :=
  h.spells.text_ne_nil (List.append_ne_nil_of_right_ne_nil _
    (List.append_ne_nil_of_left_ne_nil (List.cons_ne_nil _ _) ns))

theorem reads (hroot : ∀ n ∈ c.root.names, Ordinary n) :
    Reads c.root.isAbsolute (c.root.names ++ (filesNames env ++ ns)) (c.filePath env (listed ns)) := by
  have hreads := reads_filePath (fun n hn => (hroot n hn).proper) h.ordinary_env.proper h.plain
  rwa [h.keptNames_eq] at hreads

/-- The root leaves room for what lies in the cache. -/
theorem weight_root : weight c.root.names + (if c.root.isAbsolute then 1 else 0) ≤ maxPath := by
  have hall := Path.weight_names_le (c.filePath env (listed ns))
  have hshort := h.short
  have hfiles : weight (filesNames env) = (Bytes.ofString "files").length + 1 + weight [env] := rfl
  rw [h.spells.names_eq, h.spells.isAbsolute_eq, Path.weight_append, Path.weight_append] at hall
  omega

end Accepts

/-! ## The cache on the way -/

/-- What a cache has become by what came into it: it is as it was, or settled at a place. -/
inductive Filled (c : Cache) (P : Place) (d : Disk) : Disk → Prop
  | untouched : Filled c P d d
  | settled {d' : Disk} : c.Settled P d' → Filled c P d d'

variable (hopens : c.Opens d d₁) (hsettled : c.Settled P d₁)
include hopens hsettled

/-- A cache that has not been touched takes what comes as one that is settled. -/
theorem Filled.exists_settled (h : Filled c P d d') (hns : c.Accepts env ns) : ∃ d'', c.Settled P d'' ∧
    c.destination env (listed ns) d' = c.destination env (listed ns) d'' ∧
    c.ensureDirectory (c.filePath env (listed ns)) d' =
      c.ensureDirectory (c.filePath env (listed ns)) d'' := by
  cases h with
  | settled h => exact ⟨d', h, rfl, rfl⟩
  | untouched =>
    have hspells := hns.spells
    refine ⟨d₁, hsettled, ?_, hopens.ensureDirectory_eq hspells.components hns.weight_root⟩
    obtain ⟨above, n, rfl⟩ : ∃ above n, ns = above ++ [n] :=
      ⟨_, _, (List.dropLast_concat_getLast hns.ne_nil).symm⟩
    rw [← List.append_assoc, ← List.append_assoc] at hspells
    have habove : c.root.names ++ filesNames env ++ above ≠ [] :=
      List.append_ne_nil_of_left_ne_nil (List.append_ne_nil_of_right_ne_nil _ (List.cons_ne_nil _ _)) _
    have hparent := hspells.parent habove
    have hempty := List.isEmpty_eq_false_iff.2 (hparent.text_ne_nil habove)
    rw [List.append_assoc] at hparent
    rw [destination, prepare_apply, prepare_apply, Path.isEmpty, hempty, if_neg Bool.false_ne_true,
      if_neg Bool.false_ne_true, hopens.ensureDirectory_eq hparent.components hns.weight_root]

/-- Whatever came before, a directory is made, and the cache is settled then. -/
theorem ensureDirectory_filled (h : Filled c P d d') (hns : c.Accepts env ns) :
    ∃ d'', c.ensureDirectory (c.filePath env (listed ns)) d' = (.ok (), d'') ∧ c.Settled P d'' := by
  obtain ⟨d₂, hready, -, heq⟩ := h.exists_settled hopens hsettled hns
  have hordinary : ∀ n ∈ filesNames env ++ ns, Ordinary n := by
    intro n hn
    rcases List.mem_append.1 hn with hn | hn
    · rcases List.mem_cons.1 hn with rfl | hn
      · exact ordinary_files
      · exact List.mem_singleton.1 hn ▸ hns.ordinary_env
    · exact hns.ordinary n hn
  have hwalk : Making.Walkable c (filesNames env ++ ns) := walkable_of_reads hready.ordinary
    hready.text_ne_nil ⟨_, Path.wind_of_ordinary hordinary⟩ (hns.reads hready.ordinary)
    (List.prefix_refl _) hns.short
  obtain ⟨d'', hmade, hsite, -, hwithin⟩ :=
    exists_ensureDirectory_at hwalk hready.site (hns.reads hready.ordinary)
  refine ⟨d'', heq.trans hmade, hready.of_within hsite (hwithin.mono ?_)⟩
  rintro q ⟨s, -, rfl⟩
  exact List.prefix_append P s

end Cache

/-! ## Files -/

namespace MasterFiles

variable {m : MasterFiles σ}

/-- Whatever came into the cache before, a download in it starts as in one that is settled. -/
theorem exists_startInCache_filled {d₀ : Disk} (hopens : m.cache.Opens d d₁)
    (hsettled : m.cache.Settled P d₁) (h : m.cache.Filled P d d₀) (hns : m.cache.Accepts env ns) :
    ∃ d₂ dl d₃, m.cache.Settled P d₂ ∧
      m.startInCache {} env (listed ns) d₀ = m.startInCache {} env (listed ns) d₂ ∧
      m.startInCache {} env (listed ns) d₀ = (.ok dl, d₃) := by
  obtain ⟨d₂, hready, hdestination, -⟩ := h.exists_settled hopens hsettled hns
  have hstart : m.startInCache {} env (listed ns) d₀ = m.startInCache {} env (listed ns) d₂ := by
    rw [startInCache_apply, startInCache_apply, hdestination]
  obtain ⟨dl, d₃, hstarted⟩ := exists_startInCache (r := Courier.cacheRequest (listed ns) env) m
    hready.ready hns.ordinary_env hns.relative hns.short
  exact ⟨d₂, dl, d₃, hready, hstart, hstart.trans hstarted⟩

theorem openable_filled {w : World σ} (hopens : m.cache.Opens d d₁) (hsettled : m.cache.Settled P d₁)
    (h : m.cache.Filled P d w.disk) (hns : m.cache.Accepts env ns) :
    m.Openable (Courier.cacheRequest (listed ns) env) (listed ns) w.disk := by
  obtain ⟨-, dl, d₃, -, -, hopened⟩ := exists_startInCache_filled hopens hsettled h hns
  exact .cached rfl hns.relative.text_ne_nil hopened

/-- Whatever came into the cache before, a file that is served whenever the master is reached is stored
there or timed out. -/
theorem getFile_filled {w : World σ} (hopens : m.cache.Opens d d₁) (hsettled : m.cache.Settled P d₁)
    (h : m.cache.Filled P d w.disk) (hns : m.cache.Accepts env ns)
    (hserves : m.ServesWhenReached (Courier.cacheRequest (listed ns) env) (listed ns) content
      (listed ns)) (hpatience : content.length < m.patience) :
    ((m.getFile (Courier.cacheRequest (listed ns) env) w).1 = .ok .timeout ∨
      (m.getFile (Courier.cacheRequest (listed ns) env) w).1 =
        .ok (.stored (m.cache.filePath env (listed ns)))) ∧
    m.cache.Filled P d (m.getFile (Courier.cacheRequest (listed ns) env) w).2.disk := by
  let r := Courier.cacheRequest (listed ns) env
  have hstrip : VirtualPath.strip? r.path = some (listed ns) := VirtualPath.strip?_eq_some_iff.2 rfl
  obtain ⟨d₂, dl, d₃, hready, hstart, hopened⟩ := exists_startInCache_filled hopens hsettled h hns
  constructor
  · rcases run_of_reached (r := r) rfl hserves hpatience
      (openable_filled hopens hsettled h hns) with ⟨htimeout, -⟩ | ⟨hstored, -⟩
    · exact .inl htimeout
    · exact .inr hstored
  -- The name that is opened is the one that is served.
  have name_eq {reply : Message} {name : Bytes} {s s' : σ}
      (hask : m.ask (pieceRequest r (listed ns) 0) s = (.ok reply, s'))
      (hname : nameIn (listed ns) reply = some name) : name = listed ns := by
    rcases hserves 0 (Nat.zero_le _) s with ⟨what, last, hother⟩ | ⟨reply', hreply, hserved⟩
    · rw [hask] at hother
      cases hother
    · rw [hask] at hreply
      cases hreply
      rw [nameIn_of_dest hserved.dest_eq hns.relative.text_ne_nil] at hname
      exact (Option.some.inj hname).symm
  cases getFile_inCache m w (r := r) rfl hstrip with
  | unopened hdisk =>
    rw [hdisk]
    exact h
  | refused hask hname hfailed =>
    obtain rfl := name_eq hask hname
    cases hopened.symm.trans hfailed
  | @opened _ _ _ _ dl' d₄ hask hname hstarted' hrun =>
    obtain rfl := name_eq hask hname
    obtain ⟨hwithin, hsite⟩ := Cache.At.startInCache hready.site
      (fun n hn => (hready.ordinary n hn).proper) hns.ordinary_env.proper hns.plain
      (hstart.symm.trans hstarted')
    obtain ⟨hsite₁, hhandle⟩ := hsite dl' rfl
    obtain ⟨hsite', hfetched⟩ := fetch_site m r (listed ns) hsite₁ (tracks_of_startInCache hstarted')
      hhandle m.patience w.beyond
    rw [hrun]
    refine .settled (hready.of_within hsite' ((hwithin.mono ?_).trans (hfetched.mono ?_)))
    · rintro q (⟨⟨x, -, -, rfl⟩, -⟩ | hbelow)
      · exact List.prefix_append P x
      · exact (List.prefix_append P _).trans hbelow
    · rintro q rfl
      exact List.prefix_append P _

end MasterFiles

end FileCourier
