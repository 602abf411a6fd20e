import FileCourier.Proofs.Cache.Course

/-!
# Files that are put below the root of a cache

A maker that is alone gets to the end of its course (`exists_ensureDirectory_at`), whatever the
cache holds. So a file can be put at every place in the cache where no directory stands
(`Takes.exists_opened`) or once that is removed (`Takes.exists_removeAll`), and a local file
is copied there (`exists_storeLocalFile`).
-/

namespace FileCourier.Making

open Disk (Within)
open FileCourier.Path (Reads visited)

variable {c : Cache} {P q : Place} {ns : List Bytes} {d d' : Disk} {m : Making} {p : Path}

/-- The places that a maker comes by. -/
def ComesBy (P : Place) (ns : List Bytes) (q : Place) : Prop := ∃ s ∈ visited ns, q = P ++ s

theorem Touch.within (h : Touch P ns d d') : Within (ComesBy P ns) d d' := by
  cases h with
  | same => exact .refl _ d
  | put _ hmem => exact Disk.within_put (ComesBy P ns) ⟨_, hmem, List.append_assoc _ _ _⟩ d _
  | drop hmem => exact Disk.within_drop ⟨_, hmem, List.append_assoc _ _ _⟩ d

/-- A maker that is alone stays on its course, changes only what it comes by, and has fewer steps
left after each. -/
theorem OnCourse.run (h : OnCourse c P ns d m) (hns : Walkable c ns) (hc : c.At P d) (n : Nat) :
    OnCourse c P ns (run c.root n m d).2 (run c.root n m d).1 ∧ c.At P (run c.root n m d).2 ∧
      Within (ComesBy P ns) d (run c.root n m d).2 ∧ (run c.root n m d).1.left ≤ m.left - n := by
  induction n generalizing m d with
  | zero => exact ⟨h, hc, .refl _ d, Nat.le_refl _⟩
  | succ n ih =>
    have hstep := h.step hns hc
    obtain ⟨hcourse, hsite, hwithin, hleft⟩ := ih hstep.course (hstep.touch.site hc)
    refine ⟨hcourse, hsite, hstep.touch.within.trans hwithin, Nat.le_trans hleft ?_⟩
    by_cases hzero : m.left = 0
    · obtain rfl := h.eq_finished hzero
      exact Nat.le_trans (Nat.sub_le _ _) (Nat.zero_le _)
    · have hless := hstep.left hzero
      omega

end FileCourier.Making

namespace FileCourier.Cache

open Disk (Aims Within maxPath)
open Making (ComesBy Walkable)
open FileCourier.Path (Ordinary Reads visited wind)

variable {c : Cache} {P : Place} {ns s : List Bytes} {n : Bytes} {d d' : Disk} {p q : Path}

/-- The directories on the way to a path in the cache can be made, whatever stands there. -/
theorem exists_ensureDirectory_at (hns : Walkable c ns) (hc : c.At P d)
    (hp : Reads c.root.isAbsolute (c.root.names ++ ns) p) :
    ∃ d', c.ensureDirectory p d = (.ok (), d') ∧ c.At P d' ∧ d'.Stood P ns ∧
      Within (ComesBy P ns) d d' := by
  obtain ⟨hcourse, hsite, hwithin, hleft⟩ :=
    (Making.onCourse_start hc hp).run hns hc (Making.stepsEach * p.components.length)
  have hsteps : (Making.start p).left = Making.stepsEach * p.components.length :=
    Making.left_next _ _
  rw [hsteps, Nat.sub_self] at hleft
  have hfinished := hcourse.eq_finished (Nat.le_zero.1 hleft)
  refine ⟨(Making.complete c.root p d).2, ?_, hsite, ?_, hwithin⟩
  · have hcomplete : Making.complete c.root p d = (.finished, (Making.complete c.root p d).2) :=
      Prod.ext hfinished rfl
    rw [ensureDirectory, hcomplete]
  · rw [hfinished] at hcourse
    cases hcourse with
    | finished hstood => exact hstood

/-- A file can be kept at a path below the root of the cache: its components stay in the cache and do
not come by the place of the file, and names and path are not too long. -/
structure Takes (c : Cache) (q : Path) : Prop where
  relative : q.isAbsolute = false
  below : q.aboveLast ≠ []
  ordinary : Ordinary q.filename
  inside : ∃ s, wind q.aboveLast = some s ∧ s ++ [q.filename] ∉ visited q.aboveLast
  short : (c.root / q).text.length ≤ maxPath

/-- No directory stands at the place of a path below the root. -/
def Vacant (d : Disk) (P : Place) (q : Path) : Prop :=
  ∀ s, wind q.names = some s → ∀ k, d.get? (P ++ s) ≠ some (.dir k)

/-- The cache is where it was when nothing changed outside it, if nothing in it is on the way to it. -/
theorem at_of_clear (hway : (d.clear P).Way c.root.isAbsolute c.root.names P)
    (hwithin : Within (P <+: ·) d d') (hdir : ∃ k, d'.get? P = some (.dir k)) (htree : d'.IsTree)
    (hlink : ∀ q t, P <+: q → d'.get? q ≠ some (.link t)) : c.At P d' := by
  have hplace : ∀ t, (d.clear P).get? P ≠ some (.link t) := by
    intro t ht
    obtain ⟨q, k, hfollow, hq⟩ := hway _ [] (List.append_nil _).symm
    obtain rfl := hq rfl
    cases ht.symm.trans (Disk.spot_of_follow hfollow)
  have hcleared := hway.of_keeps (hwithin.keeps_clear hdir hplace)
  exact ⟨htree, hlink _ _, hcleared.of_keeps (Disk.region_clear htree hlink).keeps⟩

namespace Takes

variable (h : c.Takes q)
include h

theorem endsInSlash : q.endsInSlash = false := by
  have hne := h.ordinary.ne_nil
  rw [Path.filename] at hne
  cases hends : q.endsInSlash with
  | true =>
    rw [hends] at hne
    exact absurd rfl hne
  | false => rfl

theorem names_eq : q.names = q.aboveLast ++ [q.filename] := by
  have hname := h.ordinary.ne_nil
  rw [Path.filename, h.endsInSlash, if_neg Bool.false_ne_true] at hname ⊢
  have hne : q.names ≠ [] := fun hnil => hname (by rw [hnil]; rfl)
  rw [Path.aboveLast, h.endsInSlash, if_neg Bool.false_ne_true, List.getLastD_eq_getLast?,
    List.getLast?_eq_some_getLast hne, Option.getD_some, List.dropLast_concat_getLast]

theorem text_ne_nil : q.text ≠ [] := fun htext => by
  have hnames := h.names_eq
  rw [Path.names, htext] at hnames
  exact absurd hnames.symm (List.append_ne_nil_of_right_ne_nil _ (List.cons_ne_nil _ _))

theorem reads (hroot : ∀ n ∈ c.root.names, Ordinary n) :
    Reads c.root.isAbsolute (c.root.names ++ (q.aboveLast ++ [q.filename])) (c.root / q) := by
  obtain ⟨s, hs, -⟩ := h.inside
  have hnames : (c.root / q).names = c.root.names ++ (q.aboveLast ++ [q.filename]) := by
    rw [Path.names_join _ h.relative, h.names_eq]
  have hnul : ∀ n ∈ (c.root / q).names, 0 ∉ n := by
    intro n hn
    rw [hnames] at hn
    rcases List.mem_append.1 hn with hn | hn
    · exact (hroot n hn).no_nul
    rcases List.mem_append.1 hn with hn | hn
    · exact (Path.segment_of_wind hs n hn).2.2
    · rw [List.mem_singleton.1 hn]
      exact h.ordinary.no_nul
  refine ⟨Path.isAbsolute_join _ h.relative, hnames, ?_, fun hmem => ?_⟩
  · have hsome : q.names ≠ [] := by rw [h.names_eq]; simp
    rw [Path.endsInSlash, Path.getLast?_join _ h.text_ne_nil,
      beq_eq_false_iff_ne.2 (Path.last_of_not_endsInSlash hsome h.endsInSlash), Bool.false_and]
  · obtain ⟨n, hn, hzero⟩ := Path.exists_mem_names (by decide) hmem
    exact hnul n hn hzero

theorem aims (hc : c.At P d) (hroot : ∀ n ∈ c.root.names, Ordinary n)
    (hstood : d.Stood P q.aboveLast) (hs : wind q.aboveLast = some s) :
    Aims d (c.root / q) (P ++ s) q.filename :=
  hc.aims (h.reads hroot) h.short hstood hs h.ordinary

/-- The directories for a file can be made. -/
theorem exists_prepare (hc : c.At P d) (hroot : ∀ n ∈ c.root.names, Ordinary n)
    (htext : c.root.text ≠ []) : ∃ d', c.prepare (c.root / q) d = (.ok (c.root / q), d') ∧
      c.At P d' ∧ d'.Stood P q.aboveLast ∧ Within (ComesBy P q.aboveLast) d d' := by
  obtain ⟨s, hs, -⟩ := h.inside
  have hparent := reads_parent_below (Path.no_nul_of_names hroot) h.relative h.below hs
  have hwalk : Walkable c q.aboveLast := walkable_of_reads hroot htext ⟨s, hs⟩ (h.reads hroot)
    (by rw [← List.append_assoc]; exact List.prefix_append _ _) h.short
  obtain ⟨d', hmade, hsite, hstood, hwithin⟩ := exists_ensureDirectory_at hwalk hc hparent
  have hne : (c.root / q).parent.isEmpty = false := List.isEmpty_eq_false_iff.2
    (hparent.text_ne_nil (List.append_ne_nil_of_right_ne_nil _ h.below))
  exact ⟨d', by rw [prepare_apply, hne, if_neg Bool.false_ne_true, hmade], hsite, hstood, hwithin⟩

/-- The place of the file is none that its components come by. -/
theorem not_comesBy (hs : wind q.aboveLast = some s) {r : List Bytes} (hr : r ∈ visited q.aboveLast) :
    ¬P ++ s ++ [q.filename] <+: P ++ r := by
  obtain ⟨s', hs', hapart⟩ := h.inside
  obtain rfl := Option.some.inj (hs.symm.trans hs')
  rw [List.append_assoc]
  exact fun hprefix =>
    hapart (Path.mem_visited_of_prefix hr ((List.prefix_append_right_inj P).1 hprefix))

theorem vacant_iff (hs : wind q.aboveLast = some s) :
    Vacant d P q ↔ ∀ k, d.get? (P ++ s ++ [q.filename]) ≠ some (.dir k) := by
  rw [Vacant, h.names_eq, Path.wind_concat_of_ordinary hs h.ordinary, List.append_assoc]
  exact ⟨fun hvacant => hvacant _ rfl, fun hdir s' hs' => Option.some.inj hs' ▸ hdir⟩

theorem vacant_of_within (hvacant : Vacant d P q) (hwithin : Within (ComesBy P q.aboveLast) d d') :
    Vacant d' P q := by
  obtain ⟨s, hs, -⟩ := h.inside
  rw [h.vacant_iff hs] at hvacant ⊢
  rwa [hwithin.get?]
  rintro ⟨r, hr, heq⟩
  exact h.not_comesBy hs hr ⟨[], (List.append_nil _).trans heq⟩

theorem vacant_of_not_isDirectory (hc : c.At P d) (hroot : ∀ n ∈ c.root.names, Ordinary n)
    (hstood : d.Stood P q.aboveLast) (hdirectory : d.isDirectory (c.root / q) = false) :
    Vacant d P q := by
  obtain ⟨s, hs, -⟩ := h.inside
  refine (h.vacant_iff hs).2 fun k hdir => ?_
  rw [Disk.isDirectory, (h.aims hc hroot hstood hs).entryAt?_eq, hdir] at hdirectory
  cases hdirectory

theorem exists_openForWriting (hvacant : Vacant d P q) (hc : c.At P d)
    (hroot : ∀ n ∈ c.root.names, Ordinary n) (hstood : d.Stood P q.aboveLast) :
    ∃ place d', d.openForWriting (c.root / q) = .ok (place, d') ∧ P <+: place := by
  obtain ⟨s, hs, -⟩ := h.inside
  have haims := h.aims hc hroot hstood hs
  obtain ⟨place, d', hopen⟩ := haims.exists_openForWriting ((h.vacant_iff hs).1 hvacant)
  refine ⟨place, d', hopen, ?_⟩
  rw [haims.place_of_openForWriting hopen, List.append_assoc]
  exact List.prefix_append P _

/-- Where no directory stands, a file can be put. -/
theorem exists_opened (hvacant : Vacant d P q) (hc : c.At P d)
    (hroot : ∀ n ∈ c.root.names, Ordinary n) (htext : c.root.text ≠ []) :
    ∃ d₁ place d₂, c.prepare (c.root / q) d = (.ok (c.root / q), d₁) ∧
      d₁.openForWriting (c.root / q) = .ok (place, d₂) ∧ P <+: place := by
  obtain ⟨d₁, hprepare, hat, hstood, hwithin⟩ := h.exists_prepare hc hroot htext
  obtain ⟨place, d₂, hopen, hinside⟩ :=
    h.exists_openForWriting (h.vacant_of_within hvacant hwithin) hat hroot hstood
  exact ⟨d₁, place, d₂, hprepare, hopen, hinside⟩

/-- A directory at the place of the file can be removed, and a file opened in its stead. -/
theorem exists_removeAll (hway : (d.clear P).Way c.root.isAbsolute c.root.names P)
    (hroot : ∀ n ∈ c.root.names, Ordinary n) (hc : c.At P d') (hstood : d'.Stood P q.aboveLast)
    (hwithin : Within (P <+: ·) d d') (hdirectory : d'.isDirectory (c.root / q) = true) :
    ∃ d'', Chores.removeAll (c.root / q) d' = (.ok (), d'') ∧
      ∃ place d₃, d''.openForWriting (c.root / q) = .ok (place, d₃) := by
  obtain ⟨s, hs, -⟩ := h.inside
  have haims := h.aims hc hroot hstood hs
  have hinside : P <+: P ++ s ++ [q.filename] := by
    rw [List.append_assoc]
    exact List.prefix_append P _
  -- What stands at the place and below it is on the way neither to the cache nor to the place.
  have kept {e : Disk} (hchanged : Within (P ++ s ++ [q.filename] <+: ·) d' e) (htree : e.IsTree)
      (hsub : ∀ {r x}, e.get? r = some x → d'.get? r = some x) :
      Aims e (c.root / q) (P ++ s) q.filename := by
    have hdir : ∃ k, e.get? P = some (.dir k) := by
      rw [hchanged.get? fun hprefix => ?_]
      · exact hc.dir
      · have hle := hprefix.length_le
        simp only [List.length_append, List.length_singleton] at hle
        omega
    have hat : c.At P e := at_of_clear hway
      (hwithin.trans (hchanged.mono fun r hr => hinside.trans hr)) hdir htree
      fun r t hr hlink => hc.noLink hr (hsub hlink)
    refine h.aims hat hroot (fun r hr => ?_) hs
    rw [hchanged.get? (h.not_comesBy hs hr)]
    exact hstood r hr
  have hdir : ∃ k, d'.get? (P ++ s ++ [q.filename]) = some (.dir k) := by
    rw [Disk.isDirectory, haims.entryAt?_eq] at hdirectory
    split at hdirectory
    · rename_i hdir
      exact ⟨_, hdir⟩
    · cases hdirectory
  obtain ⟨k, hdir⟩ := hdir
  have hcleared : (d'.clear (P ++ s ++ [q.filename])).get? (P ++ s ++ [q.filename]) =
      some (.dir k) := by
    rwa [Disk.get?_clear_of_not_below fun hbelow => hbelow.2 rfl]
  have hchildren := Disk.children_clear d' (P ++ s ++ [q.filename])
  have htree := hc.tree.clear (P ++ s ++ [q.filename])
  have hclear := Disk.within_clear (fun r hr _ => hr) d' (s := (P ++ s ++ [q.filename] <+: ·))
  have hremove := (kept hclear htree Disk.get?_of_get?_clear).remove_dir hcleared hchildren
  have hdropped := kept (hclear.trans (Disk.within_drop (List.prefix_refl _) _))
    (htree.drop (by simp) fun r => htree.below_of_children hcleared fun _ _ => hchildren)
    fun hr => Disk.get?_of_get?_clear (Disk.get?_of_get?_drop hr (by simp))
  refine ⟨_, ?_, hdropped.exists_openForWriting fun k => ?_⟩
  · rw [Chores.removeAll, Action.get_bind, haims.emptied_eq hdir]
    refine (Action.bind_ok rfl).trans ?_
    rw [Chores.remove, Action.get_bind, hremove]
    rfl
  · rw [Disk.get?_drop_self (by simp)]
    rintro ⟨⟩

end Takes

/-! ## Local files and files from foreign hosts -/

/-- The place of a local file, seen from the root of the cache. -/
def localPlace (path : Bytes) : Path := Path.mk "localfiles" / Path.mk (VirtualPath.dropSlashes path)

theorem localPath_eq (c : Cache) (path : Bytes) : c.localPath path = c.root / localPlace path :=
  Path.join_assoc c.root rfl (List.cons_ne_nil _ _) (isAbsolute_dropSlashes path)

/-- The place of a file from a foreign host, seen from the root of the cache. -/
def foreignPlace (env host path : Bytes) : Path :=
  Path.mk "extrn_files" / Path.mk env / Path.mk host / Path.mk (VirtualPath.dropSlashes path)

theorem foreignPath_eq (c : Cache) {env host : Bytes} (henv : (Path.mk env).isAbsolute = false)
    (hhost : (Path.mk host).isAbsolute = false) (path : Bytes) :
    c.foreignPath env host path = c.root / foreignPlace env host path := by
  have hfiles : (Path.mk "extrn_files").isAbsolute = false := rfl
  have hjoined : (Path.mk "extrn_files" / Path.mk env).isAbsolute = false :=
    (Path.isAbsolute_join _ henv).trans hfiles
  have hne : (Path.mk "extrn_files" / Path.mk env).text ≠ [] :=
    Path.text_join_ne_nil_left (List.cons_ne_nil _ _) _
  rw [foreignPlace, ← Path.join_assoc c.root ((Path.isAbsolute_join _ hhost).trans hjoined)
    (Path.text_join_ne_nil_left hne _) (isAbsolute_dropSlashes path),
    ← Path.join_assoc c.root hjoined hne hhost,
    ← Path.join_assoc c.root hfiles (List.cons_ne_nil _ _) henv]
  rfl

/-- A local file outside the cache is copied into it. -/
theorem exists_storeLocalFile {source : Path} {origin : Place} {x : Bool} {content : Bytes}
    (h : c.Takes (localPlace source.text)) (hvacant : Vacant d P (localPlace source.text))
    (hc : c.At P d) (hroot : ∀ n ∈ c.root.names, Ordinary n) (htext : c.root.text ≠ [])
    (hsource : d.find source = .ok (.at origin (.file x content))) (houtside : ¬P <+: origin) :
    ∃ d' y, c.storeLocalFile source d = (.ok (c.localPath source.text), d') ∧
      d'.entryAt? (c.localPath source.text) = some (.file y content) := by
  obtain ⟨d₁, place, d₂, hprepare, hopen, hinside⟩ := h.exists_opened hvacant hc hroot htext
  rw [← localPath_eq] at hprepare hopen
  have hread : d.read source = .ok (origin, content) := by rw [Disk.read, hsource]
  have hplace : place ≠ origin := by
    rintro rfl
    exact houtside hinside
  obtain ⟨y, hfound⟩ := Disk.find_of_openForWriting hopen
  refine ⟨d₂.append place content, y, ?_, Disk.entryAt?_of_find (Disk.find_append hfound content)⟩
  rw [storeLocalFile, Action.get_bind, hread]
  dsimp only
  refine (Action.bind_ok (x := c.localDestination source.text) hprepare).trans ?_
  rw [Action.get_bind, hopen]
  dsimp only
  rw [if_neg hplace]
  rfl

end FileCourier.Cache
