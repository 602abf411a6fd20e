import FileCourier.Proofs.Cache.Places
import FileCourier.Proofs.Disk.Stood

/-!
# A maker among others

What a maker can count on while others make directories in the same cache. Each step changes one
place on the way of its maker at most (`Touch`): it puts a directory where no file stands, or takes a
file away. A maker on its course (`OnCourse`) stays on it with each of its own steps
(`OnCourse.step`) and with those of all makers that come by none of the files on its way
(`OnCourse.of_touch`).
-/

namespace FileCourier.Making

open Disk (Aims Site maxPath)
open FileCourier.Path (Ordinary Reads spell visited wind)

variable {c : Cache} {P q : Place} {ns way done rest s : List Bytes} {n : Bytes} {d d' : Disk}
  {m : Making} {stage : Stage} {absolute : Bool} {names : List Bytes} {x : Bool} {t : Bytes}

/-! ## What a step changes -/

/-- The disk after one step of a maker that goes along `ns` below `P`. -/
inductive Touch (P : Place) (ns : List Bytes) (d : Disk) : Disk → Prop
  | same : Touch P ns d d
  | put {s : List Bytes} {n : Bytes} (mode : Nat) : s ++ [n] ∈ visited ns →
      (∃ m, d.get? (P ++ s) = some (.dir m)) →
      (∀ x t, d.get? (P ++ s ++ [n]) ≠ some (.file x t)) →
      Touch P ns d (d.put (P ++ s ++ [n]) (.dir mode))
  | drop {s : List Bytes} {n : Bytes} {x : Bool} {t : Bytes} : s ++ [n] ∈ visited ns →
      d.get? (P ++ s ++ [n]) = some (.file x t) → Touch P ns d (d.drop (P ++ s ++ [n]))

namespace Touch

theorem site (h : Touch P ns d d') (hsite : Site absolute names P d) : Site absolute names P d' := by
  cases h with
  | same => exact hsite
  | @put s n mode _ hdir =>
    have hinside : P <+: P ++ s ++ [n] := by
      rw [List.append_assoc]
      exact List.prefix_append P _
    refine hsite.put_dir hinside (by simp) (fun q c heq => ?_) mode
    obtain ⟨rfl, -⟩ := List.append_inj' heq rfl
    exact hdir
  | drop _ hfile => exact hsite.drop_file hfile

/-- What is a directory stays one. -/
theorem dir (h : Touch P ns d d') (hdir : ∃ m, d.get? q = some (.dir m)) :
    ∃ m, d'.get? q = some (.dir m) := by
  cases h with
  | same => exact hdir
  | @put s n mode =>
    by_cases hq : q = P ++ s ++ [n]
    · exact ⟨mode, by rw [hq, Disk.get?_put_self (by simp)]⟩
    · rwa [Disk.get?_put_of_ne hq]
  | drop _ hfile =>
    rw [Disk.get?_drop_of_ne]
    · exact hdir
    · rintro rfl
      obtain ⟨m, hm⟩ := hdir
      cases hm.symm.trans hfile

/-- No file comes to be. -/
theorem file_before (h : Touch P ns d d') (hfile : d'.get? q = some (.file x t)) :
    d.get? q = some (.file x t) := by
  cases h with
  | same => exact hfile
  | @put s n mode =>
    by_cases hq : q = P ++ s ++ [n]
    · rw [hq, Disk.get?_put_self (by simp)] at hfile
      cases hfile
    · rwa [Disk.get?_put_of_ne hq] at hfile
  | drop _ => exact Disk.get?_of_get?_drop hfile (by simp)

/-- A file stays where the maker does not come by. -/
theorem file_after (h : Touch P ns d d') (hs : s ∉ visited ns)
    (hfile : d.get? (P ++ s) = some (.file x t)) : d'.get? (P ++ s) = some (.file x t) := by
  have hne {s' : List Bytes} {n : Bytes} (hmem : s' ++ [n] ∈ visited ns) :
      P ++ s ≠ P ++ s' ++ [n] := by
    rw [List.append_assoc]
    intro heq
    exact hs (List.append_cancel_left heq ▸ hmem)
  cases h with
  | same => exact hfile
  | put _ hmem => rwa [Disk.get?_put_of_ne (hne hmem)]
  | drop hmem => rwa [Disk.get?_drop_of_ne (hne hmem)]

theorem stood (h : Touch P way d d') (hstood : d.Stood P ns) : d'.Stood P ns :=
  fun s hs => h.dir (hstood s hs)

end Touch

/-! ## On course -/

/-- What stands at the place of a component while a maker is at a stage. -/
def Fit (d : Disk) (q : Place) : Stage → Prop
  | .look | .judge => True
  | .remove => ∃ x t, d.get? q = some (.file x t)
  | .make => ∀ x t, d.get? q ≠ some (.file x t)
  | .restrict | .recheck => ∃ m, d.get? q = some (.dir m)

/-- The path of a component on the way into the cache. -/
def component (c : Cache) (done : List Bytes) (n : Bytes) : Path :=
  spell c.root.isAbsolute (c.root.names ++ (done ++ [n]))

/-- A maker is on its course to the directory with the names `ns` in the cache: on the way to the cache
it only looks, and in the cache all that it has come by are directories. -/
inductive OnCourse (c : Cache) (P : Place) (ns : List Bytes) (d : Disk) : Making → Prop
  | finished : d.Stood P ns → OnCourse c P ns d finished
  | slash : c.root.isAbsolute = true →
      OnCourse c P ns d (.at .look (spell true []) (c.root.names ++ ns))
  | before {done rest : List Bytes} {n : Bytes} : c.root.names = done ++ n :: rest →
      OnCourse c P ns d (.at .look (spell c.root.isAbsolute (done ++ [n])) (rest ++ ns))
  | looks {done rest : List Bytes} {n : Bytes} : ns = done ++ n :: rest → d.Stood P done →
      OnCourse c P ns d (.at .look (component c done n) rest)
  | works {stage : Stage} {done rest s : List Bytes} {n : Bytes} : ns = done ++ n :: rest →
      d.Stood P done → wind done = some s → Ordinary n → stage ≠ .look →
      Fit d (P ++ s ++ [n]) stage →
      OnCourse c P ns d (.at stage (component c done n) rest)

/-- The names lead along components that never leave the cache, by paths that are not too long. The
cache is not spelled as a dot, by which no path in it is known to lie there. -/
structure Walkable (c : Cache) (ns : List Bytes) : Prop where
  winds : ∃ s, wind ns = some s
  short : ∀ done, done <+: c.root.names ++ ns →
    (spell c.root.isAbsolute done).text.length ≤ maxPath
  no_nul : 0 ∉ c.root.text
  text_ne_nil : c.root.text ≠ []
  ne_dot : c.root.normal ≠ [Path.dot]

theorem onCourse_next_below (hns : ns = done ++ rest) (hstood : d.Stood P done) :
    OnCourse c P ns d (next (spell c.root.isAbsolute (c.root.names ++ done)) rest) := by
  cases rest with
  | nil =>
    rw [List.append_nil] at hns
    exact .finished (hns ▸ hstood)
  | cons n rest =>
    rw [next_spell_cons, List.append_assoc]
    exact .looks hns hstood

theorem onCourse_next_before (hc : c.At P d) (hroot : c.root.names = done ++ rest) :
    OnCourse c P ns d (next (spell c.root.isAbsolute done) (rest ++ ns)) := by
  cases rest with
  | nil =>
    have hbelow : OnCourse c P ns d (next (spell c.root.isAbsolute (c.root.names ++ [])) ns) :=
      onCourse_next_below (List.nil_append ns).symm (Disk.stood_nil hc.dir)
    rw [List.append_nil] at hbelow hroot
    rwa [hroot] at hbelow
  | cons n rest =>
    rw [List.cons_append, next_spell_cons]
    exact .before hroot

/-- A maker for a directory in the cache begins on its course. -/
theorem onCourse_start {p : Path} (hc : c.At P d)
    (hp : Reads c.root.isAbsolute (c.root.names ++ ns) p) : OnCourse c P ns d (start p) := by
  have hnext : OnCourse c P ns d (next (spell c.root.isAbsolute []) (c.root.names ++ ns)) :=
    onCourse_next_before hc (List.nil_append c.root.names).symm
  rw [start, hp.components]
  cases habsolute : c.root.isAbsolute with
  | true => exact .slash habsolute
  | false =>
    rw [habsolute] at hnext
    exact hnext

theorem reads_here (h : Walkable c ns) (hns : done <+: ns) :
    Reads c.root.isAbsolute (c.root.names ++ done) (spell c.root.isAbsolute (c.root.names ++ done)) := by
  obtain ⟨s, hs⟩ := h.winds
  obtain ⟨s', hs'⟩ := Path.wind_of_prefix hns hs
  have hroot : Reads c.root.isAbsolute c.root.names (spell c.root.isAbsolute c.root.names) :=
    (reads_origin _).along_segments (Path.segments_of_no_nul h.no_nul)
  rw [spell, Path.along_append]
  exact hroot.along_of_wind hs'

/-- A component behind a walk leads to its name in the directory where the walk ends. -/
theorem aims_here (h : Walkable c ns) (hc : c.At P d) (hns : ns = done ++ n :: rest)
    (hstood : d.Stood P done) (hs : wind done = some s) (hn : Ordinary n) :
    Aims d (component c done n) (P ++ s) n := by
  have hdone : done ++ [n] <+: ns := ⟨rest, by rw [hns, List.append_assoc, List.singleton_append]⟩
  refine hc.aims (reads_here h hdone) (h.short _ ?_) hstood hs hn
  exact (List.prefix_append_right_inj _).2 hdone

theorem isDirectory_before (h : Walkable c ns) (hc : c.At P d) (hroot : c.root.names = done ++ n :: rest) :
    d.isDirectory (spell c.root.isAbsolute (done ++ [n])) = true := by
  have hsegments : ∀ x ∈ done ++ [n], Path.Segment x ∧ 0 ∉ x := fun x hx =>
    Path.segments_of_no_nul h.no_nul x (by
      rw [hroot, List.append_cons]
      exact List.mem_append_left rest hx)
  have hreads : Reads c.root.isAbsolute (done ++ [n]) (spell c.root.isAbsolute (done ++ [n])) :=
    (reads_origin _).along_segments hsegments
  have hprefix : done ++ [n] <+: c.root.names ++ ns :=
    ⟨rest ++ ns, by rw [hroot]; simp⟩
  obtain ⟨q, k, hfollow, -⟩ := hc.way (done ++ [n]) rest (by rw [hroot, List.append_cons])
  have htext : (spell c.root.isAbsolute (done ++ [n])).text ≠ [] := by
    rw [Path.spell_append_singleton]
    exact Path.text_join_ne_nil (q := ⟨n⟩) _ (hsegments n (by simp)).1.ne_nil
  rw [Disk.isDirectory, Disk.entryAt?, Disk.find_of_reads hreads htext (h.short _ hprefix), hfollow]

/-! ## Steps -/

/-- The steps that are left when nothing stands in the way twice. -/
def Stage.left : Stage → Nat
  | .look => 5
  | .judge => 4
  | .remove => 3
  | .make => 2
  | .restrict | .recheck => 1

/-- So many steps are left at most. -/
def left : Making → Nat
  | .at stage _ rest => stage.left + stepsEach * rest.length
  | _ => 0

theorem Stage.left_pos (stage : Stage) : 0 < stage.left := by cases stage <;> decide

theorem left_next (here : Path) (rest : List Bytes) :
    left (next here rest) = stepsEach * rest.length := by
  cases rest with
  | nil => rfl
  | cons n rest =>
    rw [next, left, List.length_cons, Nat.mul_succ, Nat.add_comm]
    rfl

theorem left_next_lt (stage : Stage) (here here' : Path) (rest : List Bytes) :
    left (next here rest) < left (.at stage here' rest) := by
  rw [left_next, left]
  exact Nat.lt_add_of_pos_left stage.left_pos

/-- What a step does for a maker on its course. -/
structure Steps (c : Cache) (P : Place) (ns : List Bytes) (d : Disk) (m : Making)
    (after : Making × Disk) : Prop where
  course : OnCourse c P ns after.2 after.1
  touch : Touch P ns d after.2
  left : m.left ≠ 0 → after.1.left < m.left

/-- A component at which the maker works. -/
structure Working (c : Cache) (P : Place) (ns : List Bytes) (d : Disk) (done s : List Bytes)
    (n : Bytes) (rest : List Bytes) : Prop where
  walkable : Walkable c ns
  site : c.At P d
  split : ns = done ++ n :: rest
  stood : d.Stood P done
  wind : wind done = some s
  ordinary : Ordinary n

namespace Working

variable (h : Working c P ns d done s n rest)
include h

theorem aims : Aims d (component c done n) (P ++ s) n :=
  aims_here h.walkable h.site h.split h.stood h.wind h.ordinary

theorem mem_visited : s ++ [n] ∈ visited ns :=
  h.split ▸ Path.mem_visited_of_wind h.wind h.ordinary rest

theorem isWithin : (component c done n).isWithin c.root = true :=
  Path.Reads.isWithin_of_wind h.walkable.text_ne_nil h.walkable.ne_dot
    (reads_here h.walkable ⟨rest, by rw [h.split]; simp⟩) h.wind h.ordinary

/-- When a directory stands there, the maker goes on with the next component. -/
theorem course_next (htouch : Touch P ns d d')
    (hdir : ∃ k, d'.get? (P ++ s ++ [n]) = some (.dir k)) :
    OnCourse c P ns d' (next (component c done n) rest) := by
  refine onCourse_next_below (by rw [h.split, List.append_cons]) ?_
  refine (htouch.stood h.stood).concat fun s' hs' => ?_
  obtain ⟨s₁, hs₁, hturn⟩ := Path.exists_turning hs'
  obtain rfl : s = s₁ := Option.some.inj (h.wind.symm.trans hs₁)
  cases hturn with
  | dot => exact absurd rfl h.ordinary.ne_dot
  | dotDot => exact absurd rfl h.ordinary.ne_dotDot
  | name => rwa [← List.append_assoc]

theorem course_at (htouch : Touch P ns d d') (hstage : stage ≠ .look)
    (hfit : Fit d' (P ++ s ++ [n]) stage) :
    OnCourse c P ns d' (.at stage (component c done n) rest) :=
  .works h.split (htouch.stood h.stood) h.wind h.ordinary hstage hfit

theorem look : Steps c P ns d (.at .look (component c done n) rest)
    (step c.root (.at .look (component c done n) rest) d) := by
  rw [step]
  cases hdirectory : d.isDirectory (component c done n) with
  | true =>
    rw [Disk.isDirectory, h.aims.entryAt?_eq] at hdirectory
    refine ⟨h.course_next .same ?_, .same, fun _ => left_next_lt _ _ _ _⟩
    split at hdirectory
    · exact ⟨_, ‹_›⟩
    · cases hdirectory
  | false =>
    exact ⟨h.course_at .same (by decide) trivial, .same, fun _ => Nat.add_lt_add_right (by decide) _⟩

theorem judge : Steps c P ns d (.at .judge (component c done n) rest)
    (step c.root (.at .judge (component c done n) rest) d) := by
  rw [step, h.isWithin, Bool.and_true]
  cases hfile : d.isFile (component c done n) with
  | true =>
    rw [Disk.isFile, h.aims.entryAt?_eq] at hfile
    refine ⟨h.course_at .same (by decide) ?_, .same, fun _ => Nat.add_lt_add_right (by decide) _⟩
    split at hfile
    · exact ⟨_, _, ‹_›⟩
    · cases hfile
  | false =>
    rw [Disk.isFile, h.aims.entryAt?_eq] at hfile
    refine ⟨h.course_at .same (by decide) fun x t hget => ?_, .same,
      fun _ => Nat.add_lt_add_right (by decide) _⟩
    rw [hget] at hfile
    cases hfile

theorem remove (hfit : Fit d (P ++ s ++ [n]) .remove) :
    Steps c P ns d (.at .remove (component c done n) rest)
      (step c.root (.at .remove (component c done n) rest) d) := by
  obtain ⟨x, t, hfile⟩ := hfit
  have htouch : Touch P ns d (d.drop (P ++ s ++ [n])) := .drop h.mem_visited hfile
  rw [step, h.aims.remove_file hfile]
  refine ⟨h.course_at htouch (by decide) fun x t hget => ?_, htouch,
    fun _ => Nat.add_lt_add_right (by decide) _⟩
  rw [Disk.get?_drop_self (by simp)] at hget
  cases hget

theorem make (hfit : Fit d (P ++ s ++ [n]) .make) :
    Steps c P ns d (.at .make (component c done n) rest)
      (step c.root (.at .make (component c done n) rest) d) := by
  rw [step]
  cases hget : d.get? (P ++ s ++ [n]) with
  | none =>
    have htouch : Touch P ns d (d.put (P ++ s ++ [n]) (.dir Disk.openMode)) :=
      .put _ h.mem_visited h.aims.dir hfit
    rw [h.aims.makeDirectory_eq hget]
    exact ⟨h.course_at htouch (by decide) ⟨_, Disk.get?_put_self (by simp)⟩, htouch,
      fun _ => Nat.add_lt_add_right (by decide) _⟩
  | some e =>
    rw [h.aims.makeDirectory_taken hget]
    cases e with
    | dir k =>
      exact ⟨h.course_at .same (by decide) ⟨k, hget⟩, .same,
        fun _ => Nat.add_lt_add_right (by decide) _⟩
    | file x t => exact absurd hget (hfit x t)
    | link t => exact absurd hget (h.aims.noLink t)

theorem restrict (hfit : Fit d (P ++ s ++ [n]) .restrict) :
    Steps c P ns d (.at .restrict (component c done n) rest)
      (step c.root (.at .restrict (component c done n) rest) d) := by
  obtain ⟨k, hdir⟩ := hfit
  have htouch : Touch P ns d (d.put (P ++ s ++ [n]) (.dir Disk.ownerMode)) :=
    .put _ h.mem_visited h.aims.dir fun x t hget => by cases hget.symm.trans hdir
  rw [step, h.aims.setMode_eq hdir]
  exact ⟨h.course_next htouch ⟨_, Disk.get?_put_self (by simp)⟩, htouch,
    fun _ => left_next_lt _ _ _ _⟩

theorem recheck (hfit : Fit d (P ++ s ++ [n]) .recheck) :
    Steps c P ns d (.at .recheck (component c done n) rest)
      (step c.root (.at .recheck (component c done n) rest) d) := by
  obtain ⟨k, hdir⟩ := hfit
  have hknown : d.unknowable? (component c done n) = none := by
    rw [Disk.unknowable?, h.aims.find_at hdir]
  have hdirectory : d.isDirectory (component c done n) = true := by
    rw [Disk.isDirectory, h.aims.entryAt?_eq, hdir]
  rw [step, hknown]
  dsimp only
  rw [if_pos hdirectory]
  exact ⟨h.course_next .same ⟨k, hdir⟩, .same, fun _ => left_next_lt _ _ _ _⟩

end Working

/-- A maker that is on its course takes a step on it. -/
theorem OnCourse.step (h : OnCourse c P ns d m) (hns : Walkable c ns) (hc : c.At P d) :
    Steps c P ns d m (step c.root m d) := by
  have passed {here : Path} {comps : List Bytes} (hdirectory : d.isDirectory here = true)
      (hnext : OnCourse c P ns d (next here comps)) :
      Steps c P ns d (.at .look here comps) (Making.step c.root (.at .look here comps) d) := by
    rw [Making.step, if_pos hdirectory]
    exact ⟨hnext, .same, fun _ => left_next_lt _ _ _ _⟩
  cases h with
  | finished hstood => exact ⟨.finished hstood, .same, fun hleft => absurd rfl hleft⟩
  | slash habsolute =>
    refine passed rfl ?_
    have hnext : OnCourse c P ns d (next (spell c.root.isAbsolute []) (c.root.names ++ ns)) :=
      onCourse_next_before hc (List.nil_append c.root.names).symm
    rwa [habsolute] at hnext
  | before hroot =>
    refine passed (isDirectory_before hns hc hroot) (onCourse_next_before hc ?_)
    rw [hroot, List.append_cons]
  | @looks done rest n hsplit hstood =>
    have hdone : done ++ [n] <+: ns := ⟨rest, by rw [hsplit]; simp⟩
    obtain ⟨s, hs⟩ := hns.winds
    obtain ⟨s', hs'⟩ := Path.wind_of_prefix hdone hs
    by_cases hn : Ordinary n
    · obtain ⟨s₁, hs₁, -⟩ := Path.exists_turning hs'
      exact Working.look ⟨hns, hc, hsplit, hstood, hs₁, hn⟩
    · -- A step to the same directory or to the one above it finds a directory.
      have hstood' := hstood.concat_of_not_ordinary hc.tree hn
      have hreads : Reads c.root.isAbsolute (c.root.names ++ (done ++ [n])) (component c done n) :=
        reads_here hns hdone
      obtain ⟨k, hfind⟩ := hc.find_stood hreads (hreads.text_ne_nil (by simp))
        (hns.short _ ((List.prefix_append_right_inj _).2 hdone)) hstood' hs'
      refine passed ?_ (onCourse_next_below (by rw [hsplit, List.append_cons]) hstood')
      rw [Disk.isDirectory, Disk.entryAt?, hfind]
  | @works stage done rest s n hsplit hstood hs hn hstage hfit =>
    have hworking : Working c P ns d done s n rest := ⟨hns, hc, hsplit, hstood, hs, hn⟩
    cases stage with
    | look => exact absurd rfl hstage
    | judge => exact hworking.judge
    | remove => exact hworking.remove hfit
    | make => exact hworking.make hfit
    | restrict => exact hworking.restrict hfit
    | recheck => exact hworking.recheck hfit

/-- The steps of another maker, which comes by no file on the way of this one, leave it on its
course. -/
theorem OnCourse.of_touch (h : OnCourse c P ns d m) (htouch : Touch P way d d')
    (hapart : ∀ s ∈ visited ns, s ∈ visited way → ∀ x t, d.get? (P ++ s) ≠ some (.file x t)) :
    OnCourse c P ns d' m := by
  cases h with
  | finished hstood => exact .finished (htouch.stood hstood)
  | slash habsolute => exact .slash habsolute
  | before hroot => exact .before hroot
  | looks hsplit hstood => exact .looks hsplit (htouch.stood hstood)
  | @works stage done rest s n hsplit hstood hs hn hstage hfit =>
    refine .works hsplit (htouch.stood hstood) hs hn hstage ?_
    have hmem : s ++ [n] ∈ visited ns := hsplit ▸ Path.mem_visited_of_wind hs hn rest
    cases stage with
    | look | judge => trivial
    | remove =>
      obtain ⟨x, t, hfile⟩ := hfit
      rw [List.append_assoc] at hfile
      have hother : s ++ [n] ∉ visited way := fun hway => hapart _ hmem hway x t hfile
      refine ⟨x, t, ?_⟩
      rw [List.append_assoc]
      exact htouch.file_after hother hfile
    | make => exact fun x t hfile => hfit x t (htouch.file_before hfile)
    | restrict | recheck => exact htouch.dir hfit

/-- A maker on its course with no steps left has finished. -/
theorem OnCourse.eq_finished (h : OnCourse c P ns d m) (hleft : m.left = 0) : m = .finished := by
  have stuck {stage : Stage} {here : Path} {comps : List Bytes}
      (hzero : (Making.at stage here comps).left = 0) : False :=
    absurd (Nat.add_eq_zero_iff.1 hzero).1 (Nat.ne_of_gt stage.left_pos)
  cases h with
  | finished => rfl
  | slash | before | looks | works => exact (stuck hleft).elim

end FileCourier.Making

namespace FileCourier.Cache

open Disk (maxPath)
open Making (Walkable)
open FileCourier.Path (Ordinary Reads wind)

variable {c : Cache} {p q : Path} {ns s : List Bytes}

/-- The directory of a place below the root of the cache is read along the components of both. -/
theorem reads_parent_below (hnul : 0 ∉ c.root.text) (hq : q.isAbsolute = false)
    (habove : q.aboveLast ≠ []) (hs : wind q.aboveLast = some s) :
    Reads c.root.isAbsolute (c.root.names ++ q.aboveLast) (c.root / q).parent := by
  have hnames : q.names ≠ [] := fun hnil => habove (by rw [Path.aboveLast, hnil]; exact ite_self _)
  have habsolute : (c.root / q).isAbsolute = c.root.isAbsolute := Path.isAbsolute_join _ hq
  have hjoin : (c.root / q).aboveLast = c.root.names ++ q.aboveLast := Path.aboveLast_join _ hq hnames
  have hsome : (c.root / q).names ≠ [] := by
    rw [Path.names_join _ hq]
    exact List.append_ne_nil_of_right_ne_nil _ hnames
  have hparent : (c.root / q).parent.isEmpty = false := by
    refine List.isEmpty_eq_false_iff.2 fun htext => ?_
    have hparent := Path.names_parent hsome
    rw [hjoin, Path.names, htext] at hparent
    exact List.append_ne_nil_of_right_ne_nil _ habove hparent.symm
  have hreads := Path.reads_parent hsome hparent fun n hn => by
    rw [hjoin] at hn
    rcases List.mem_append.1 hn with hn | hn
    · exact (Path.segments_of_no_nul hnul n hn).2
    · exact (Path.segment_of_wind hs n hn).2.2
  rwa [hjoin, habsolute] at hreads

/-- A path that is not too long has room for all paths on the way to it. -/
theorem walkable_of_spelling {names : List Bytes} (hnul : 0 ∉ c.root.text) (htext : c.root.text ≠ [])
    (hdot : c.root.normal ≠ [Path.dot]) (hs : ∃ s, wind ns = some s)
    (hp : Reads c.root.isAbsolute names p) (hnames : c.root.names ++ ns <+: names)
    (hshort : p.text.length ≤ maxPath) : Walkable c ns := by
  refine ⟨hs, fun done hdone => ?_, hnul, htext, hdot⟩
  by_cases hne : done = []
  · subst hne
    cases c.root.isAbsolute <;> decide
  · have hspell := Path.length_spell_lt c.root.isAbsolute hne
    have hweight := Path.weight_names_le p
    obtain ⟨rest, hrest⟩ := hdone.trans hnames
    rw [hp.names_eq, hp.isAbsolute_eq, ← hrest, Path.weight_append] at hweight
    omega

theorem walkable_of_reads {names : List Bytes} (hroot : ∀ n ∈ c.root.names, Ordinary n)
    (htext : c.root.text ≠ []) (hs : ∃ s, wind ns = some s) (hp : Reads c.root.isAbsolute names p)
    (hnames : c.root.names ++ ns <+: names) (hshort : p.text.length ≤ maxPath) : Walkable c ns :=
  walkable_of_spelling (Path.no_nul_of_names hroot) htext (Path.normal_ne_dot hroot htext) hs hp hnames
    hshort

end FileCourier.Cache
