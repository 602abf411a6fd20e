import FileCourier.Chores
import FileCourier.Proofs.Action
import FileCourier.Proofs.Disk.Changes
import FileCourier.Proofs.Disk.Walk

/-!
# Operations below a directory

A site is a directory that certain names lead to, with no links below it. A path that goes on behind
those names leads, if anywhere, to exactly the place below the directory that its last names spell
(`Site.place_eq`), so an operation on it changes that place only and leaves a site.
-/

namespace FileCourier.Disk

open FileCourier.Path (Proper Reads)

variable {d d' d'' : Disk} {b absolute : Bool} {root p q : Place} {names ns : List Bytes} {c : Bytes}
  {e : Entry} {path : Path} {spot : Spot} {n m : Nat}

/-- The names lead to the directory `root`, and at and below it there are only directories and
files. -/
structure Site (absolute : Bool) (names : List Bytes) (root : Place) (d : Disk) : Prop where
  tree : d.IsTree
  noLink : ∀ {q t}, root <+: q → d.get? q ≠ some (.link t)
  way : d.Way absolute names root

/-- A path of names and proper names behind them. -/
structure Behind (absolute : Bool) (names ns : List Bytes) (path : Path) : Prop where
  reads : Reads absolute (names ++ ns) path
  ne_nil : ns ≠ []
  proper : ∀ c ∈ ns, Proper c

/-! ## Where paths lead -/

theorem Passes.end_eq (h : Passes d p names q) (hnames : ∀ c ∈ names, Proper c) :
    q = p ++ names := by
  induction h with
  | nil => exact (List.append_nil _).symm
  | dot => exact absurd rfl (hnames _ List.mem_cons_self).ne_dot
  | dotDot => exact absurd rfl (hnames _ List.mem_cons_self).ne_dotDot
  | dir _ _ _ ih =>
    rw [ih fun c hc => hnames c (List.mem_cons_of_mem _ hc), List.append_assoc,
      List.singleton_append]

/-- Where there are no links, proper names lead to the place that they spell. -/
theorem place_of_follow (hlink : ∀ q t, root <+: q → d.get? q ≠ some (.link t)) (hp : root <+: p)
    (hns : ∀ c ∈ ns, Proper c) (h : d.follow b n p ns = .ok spot) : spot.place = p ++ ns := by
  obtain ⟨passed, q, r, rfl, hpass, hend⟩ := exists_passes_ends d b p ns
  rw [follow_of_passes hpass, follow] at h
  rw [reach_append hpass] at hend
  obtain rfl := hpass.end_eq fun c hc => hns c (List.mem_append_left _ hc)
  have hinside {x : Bytes} : root <+: p ++ passed ++ [x] :=
    hp.trans ((List.prefix_append p passed).trans (List.prefix_append _ _))
  generalize d.reach b (p ++ passed) r = reached at h hend
  cases hend with
  | here =>
    cases h
    rw [List.append_nil]
    rfl
  | free | file =>
    cases h
    rw [← List.append_assoc]
    rfl
  | linkLast _ he | link _ he => exact absurd he (hlink _ _ hinside)
  | nowhere | tooLong | missing | notDirectory => cases h

namespace Site

theorem follow_eq (h : Site absolute names root d) :
    ∃ m, d.follow true maxLinks (d.base absolute) names = .ok (.at root (.dir m)) := by
  obtain ⟨q, m, hfollow, hq⟩ := h.way names [] (List.append_nil _).symm
  obtain rfl := hq rfl
  exact ⟨m, hfollow⟩

theorem dir (h : Site absolute names root d) : ∃ m, d.get? root = some (.dir m) := by
  obtain ⟨m, hfollow⟩ := h.follow_eq
  exact ⟨m, spot_of_follow hfollow⟩

theorem place_eq (h : Site absolute names root d) (hns : ∀ c ∈ ns, Proper c) (hne : ns ≠ [])
    (hf : d.follow b maxLinks (d.base absolute) (names ++ ns) = .ok spot) :
    spot.place = root ++ ns := by
  obtain ⟨m, hfollow⟩ := h.follow_eq
  obtain ⟨k, hk⟩ := follow_append hfollow hne b
  rw [hk] at hf
  exact place_of_follow (fun _ _ => h.noLink) (List.prefix_refl root) hns hf

theorem base_dir (h : Site absolute names root d) : ∃ m, d.get? (d.base absolute) = some (.dir m) := by
  obtain ⟨q, m, hbase, -⟩ := h.way [] names rfl
  rw [follow, reach] at hbase
  cases he : d.get? (d.base absolute) with
  | none =>
    rw [he] at hbase
    cases hbase
  | some e =>
    rw [he] at hbase
    cases hbase
    exact ⟨m, rfl⟩

/-- What is found, or found free, stands in a directory. -/
theorem parent_of_follow (h : Site absolute names root d) {ns : List Bytes}
    (hf : d.follow b maxLinks (d.base absolute) ns = .ok spot) :
    ∀ q c, spot.place = q ++ [c] → ∃ m, d.get? q = some (.dir m) := by
  have hon := spot_of_follow hf
  cases spot with
  | «at» p e => exact h.tree.parent (ne_none_of_get? hon)
  | free parent c' =>
    intro q c heq
    obtain ⟨rfl, -⟩ := List.append_inj' heq rfl
    exact dir_of_follow_free h.tree h.base_dir hf

/-! ## Changes below the root -/

theorem of_keeps (h : Site absolute names root d) (hk : Keeps d d') (htree : d'.IsTree)
    (hlink : ∀ q t, root <+: q → d'.get? q ≠ some (.link t)) : Site absolute names root d' :=
  ⟨htree, hlink _ _, h.way.of_keeps hk⟩

theorem not_link_put (h : Site absolute names root d) (he : Entry.isLink e = false) (hp : p ≠ [])
    (q : Place) (t : Bytes) (hq : root <+: q) : (d.put p e).get? q ≠ some (.link t) := by
  by_cases hqp : q = p
  · rw [hqp, get?_put_self hp]
    rintro ⟨rfl⟩
    cases he
  · rw [get?_put_of_ne hqp]
    exact h.noLink hq

/-- Below the root a directory may be put in a directory, whatever stands there. -/
theorem put_dir (h : Site absolute names root d) (hp : root <+: p) (hne : p ≠ [])
    (hparent : ∀ q c, p = q ++ [c] → ∃ m, d.get? q = some (.dir m)) (m : Nat) :
    Site absolute names root (d.put p (.dir m)) := by
  refine h.of_keeps ?_ (h.tree.put hparent hne (.inl ⟨m, rfl⟩)) (h.not_link_put rfl hne)
  refine keeps_put_of hne (fun t => h.noLink hp) fun _ _ => ⟨m, rfl⟩

/-- Below the root a file may be put where no directory stands. -/
theorem put_file (h : Site absolute names root d) (hp : root <+: p) (hne : p ≠ [])
    (hparent : ∀ q c, p = q ++ [c] → ∃ m, d.get? q = some (.dir m))
    (hdir : ∀ m, d.get? p ≠ some (.dir m)) (x : Bool) (t : Bytes) :
    Site absolute names root (d.put p (.file x t)) := by
  refine h.of_keeps ?_ (h.tree.put hparent hne (.inr fun q => h.tree.get?_below hdir))
    (h.not_link_put rfl hne)
  exact keeps_put_of hne (fun t => h.noLink hp) fun m hm => absurd hm (hdir m)

/-- Below the root a file may be taken away. -/
theorem drop_file (h : Site absolute names root d) {x : Bool} {t : Bytes}
    (hfile : d.get? p = some (.file x t)) : Site absolute names root (d.drop p) := by
  have hne := ne_nil_of_file hfile
  have hdir : ∀ m, d.get? p ≠ some (.dir m) := by simp [hfile]
  refine h.of_keeps ?_ (h.tree.drop hne fun q => h.tree.get?_below hdir) fun q t hq ht =>
    h.noLink hq (get?_of_get?_drop ht hne)
  refine ⟨rfl, fun {q m} hq => ⟨m, ?_⟩, fun {q t} hq => ?_⟩
  · rwa [get?_drop_of_ne]
    rintro rfl
    exact hdir m hq
  · rwa [get?_drop_of_ne]
    rintro rfl
    rw [hfile] at hq
    cases hq

/-! ## Operations below the root -/

theorem place_ne_nil (hne : ns ≠ []) : root ++ ns ≠ [] := List.append_ne_nil_of_right_ne_nil _ hne

theorem makeDirectory (h : Site absolute names root d) (hp : Behind absolute names ns path)
    (hmake : d.makeDirectory path = .ok d') : d.get? (root ++ ns) = none ∧
      d' = d.put (root ++ ns) (.dir openMode) ∧ Site absolute names root d' := by
  obtain ⟨parent, c, hfollow, rfl⟩ := exists_of_makeDirectory hp.reads hmake
  have hplace : parent ++ [c] = root ++ ns := h.place_eq hp.proper hp.ne_nil hfollow
  have hparent := h.parent_of_follow hfollow
  obtain ⟨hfree, -⟩ := spot_of_follow hfollow
  rw [Spot.place, hplace] at hparent
  rw [hplace] at hfree ⊢
  exact ⟨hfree, rfl,
    h.put_dir (List.prefix_append root ns) (place_ne_nil hp.ne_nil) hparent openMode⟩

theorem setMode (h : Site absolute names root d) (hp : Behind absolute names ns path) (mode : Nat) :
    Site absolute names root (d.setMode path mode) ∧
      Within (· = root ++ ns) d (d.setMode path mode) := by
  rcases setMode_cases d path mode with heq | ⟨q, m, hfind, heq⟩
  · rw [heq]
    exact ⟨h, .refl _ d⟩
  · have hplace : q = root ++ ns :=
      h.place_eq hp.proper hp.ne_nil (follow_of_find hp.reads hfind)
    have hdir := get?_of_find hfind
    rw [heq]
    subst hplace
    refine ⟨h.put_dir (List.prefix_append root ns) (place_ne_nil hp.ne_nil)
      (h.tree.parent (ne_none_of_get? hdir)) mode, ?_⟩
    exact within_put (· = root ++ ns) rfl d _

/-- What is removed of a path that leads to a file is that file. -/
theorem remove_file (h : Site absolute names root d) (hp : Behind absolute names ns path)
    (hfile : d.isFile path = true) (hremove : d.remove path = .ok (some d')) :
    (∃ x t, d.get? (root ++ ns) = some (.file x t)) ∧ d' = d.drop (root ++ ns) ∧
      Site absolute names root d' := by
  obtain ⟨q, e, hfollow, rfl, -, -⟩ := exists_of_remove hp.reads hremove
  have hplace : q = root ++ ns := h.place_eq hp.proper hp.ne_nil hfollow
  obtain ⟨p, x, t, hfind⟩ := find_of_isFile hfile
  have hp' : p = root ++ ns := h.place_eq hp.proper hp.ne_nil (follow_of_find hp.reads hfind)
  have hstands : d.get? (root ++ ns) = some (.file x t) := hp' ▸ get?_of_find hfind
  subst hplace
  exact ⟨⟨x, t, hstands⟩, rfl, h.drop_file hstands⟩

/-- Whatever comes of it, removing a directory takes nothing away but what stands at its place and
below. -/
theorem removeAll (h : Site absolute names root d) (hp : Behind absolute names ns path)
    {result : Except Fault Unit} (hrun : Chores.removeAll path d = (result, d')) :
    Shrinks d d' ∧ d'.IsTree ∧ Within (root ++ ns <+: ·) d d' := by
  have kept : Shrinks d d ∧ d.IsTree ∧ Within (root ++ ns <+: ·) d d :=
    ⟨.refl d, h.tree, .refl _ d⟩
  rw [Chores.removeAll, Action.get_bind] at hrun
  cases hemptied : d.emptied path with
  | error cause =>
    rw [hemptied] at hrun
    cases hrun
    exact kept
  | ok emptied =>
    cases emptied with
    | none =>
      rw [hemptied] at hrun
      cases hrun
      exact kept
    | some d₁ =>
      have cleared : Shrinks d d₁ ∧ d₁.IsTree ∧ Within (root ++ ns <+: ·) d d₁ := by
        rcases exists_of_emptied hp.reads hemptied with rfl | ⟨b, q, m, hfollow, rfl⟩
        · exact kept
        · obtain rfl : q = root ++ ns := h.place_eq hp.proper hp.ne_nil hfollow
          refine ⟨shrinks_clear fun q t hq => ?_, h.tree.clear _, within_clear (fun q hq _ => hq) d⟩
          exact h.noLink ((List.prefix_append root ns).trans hq)
      obtain ⟨hshrinks, htree, hwithin⟩ := cleared
      have hset : (set d₁ : Action Disk Unit) d = (.ok (), d₁) := rfl
      rw [hemptied] at hrun
      dsimp only at hrun
      rw [Action.bind_ok hset, Chores.remove, Action.get_bind] at hrun
      cases hremove : d₁.remove path with
      | error cause =>
        rw [hremove] at hrun
        cases hrun
        exact ⟨hshrinks, htree, hwithin⟩
      | ok removed =>
        cases removed with
        | none =>
          rw [hremove] at hrun
          cases hrun
          exact ⟨hshrinks, htree, hwithin⟩
        | some d₂ =>
          rw [hremove] at hrun
          cases hrun
          obtain ⟨q, e, hfollow, rfl, -, hchildren⟩ := exists_of_remove hp.reads hremove
          have hbase : d₁.base absolute = d.base absolute := by
            rw [base, base, hshrinks.cwd]
          obtain ⟨spot, hfollow', hplace⟩ := follow_of_shrinks hshrinks hfollow
          rw [hbase] at hfollow'
          obtain rfl : root ++ ns = q := (h.place_eq hp.proper hp.ne_nil hfollow').symm.trans hplace
          have hne : root ++ ns ≠ [] := place_ne_nil hp.ne_nil
          have hstands : d₁.get? (root ++ ns) = some e := spot_of_follow hfollow
          refine ⟨hshrinks.trans (shrinks_drop hne fun t ht => ?_),
            htree.drop hne fun q => htree.below_of_children hstands hchildren,
            hwithin.trans (within_drop (List.prefix_refl _) d₁)⟩
          exact h.noLink (List.prefix_append root ns) (hshrinks.sub ht)

end Site

/-- A disk on which a path behind the names of a site still leads to its place is a site. -/
theorem Site.of_find (h : Site absolute names root d) (hnames : ∀ c ∈ names, Proper c)
    (hp : Behind absolute names ns path) (hk : Keeps d' d) (htree : d'.IsTree)
    (hlink : ∀ q t, root <+: q → d'.get? q ≠ some (.link t)) (hfind : d'.find path = .ok (.at p e)) :
    Site absolute names root d' := by
  have hfollow := follow_of_find hp.reads hfind
  have hbase : ∃ m, d'.get? (d'.base absolute) = some (.dir m) := by
    have hproper : ∀ c ∈ names ++ ns, Proper c := fun c hc => by
      rcases List.mem_append.1 hc with hc | hc
      · exact hnames c hc
      · exact hp.proper c hc
    obtain ⟨c, r, hcons⟩ :=
      List.exists_cons_of_ne_nil (List.append_ne_nil_of_right_ne_nil names hp.ne_nil)
    rw [hcons] at hfollow hproper
    have hc := hproper c List.mem_cons_self
    exact exists_dir_of_follow htree hc.ne_dot hc.ne_dotDot hfollow
  obtain ⟨q, m, k, hway, -⟩ := follow_of_follow_append htree hbase hfollow hp.ne_nil
  have hroot : q = root := by
    obtain ⟨m', hold⟩ := hk.dir (spot_of_follow hway)
    have hfollow' := follow_of_keeps hk hway rfl hold rfl
    obtain ⟨m'', hfollow''⟩ := h.follow_eq
    rw [show d'.base absolute = d.base absolute by rw [base, base, hk.cwd], hfollow''] at hfollow'
    cases hfollow'
    rfl
  subst hroot
  exact ⟨htree, hlink _ _, way_of_follow htree hbase hway⟩

/-- Below the root of a site, also after some entries were taken away there, a path is opened at its
place, and the site is there again. -/
theorem Site.openForWriting (h : Site absolute names root d) (hnames : ∀ c ∈ names, Proper c)
    (hp : Behind absolute names ns path) (hs : Shrinks d d') (htree : d'.IsTree)
    (hopen : d'.openForWriting path = .ok (p, d'')) :
    p = root ++ ns ∧ Within (· = root ++ ns) d' d'' ∧ Site absolute names root d'' := by
  obtain ⟨x', hfind'⟩ := find_of_openForWriting hopen
  obtain ⟨spot, x, hfind, rfl, rfl, hold⟩ := exists_of_openForWriting hopen
  have hfollow := follow_of_find hp.reads hfind
  obtain ⟨spot', hfollow', hspot⟩ := follow_of_shrinks hs hfollow
  rw [show d'.base absolute = d.base absolute by rw [base, base, hs.cwd]] at hfollow'
  have hplace : spot.place = root ++ ns :=
    hspot.symm.trans (h.place_eq hp.proper hp.ne_nil hfollow')
  have hne : spot.place ≠ [] := hplace ▸ place_ne_nil hp.ne_nil
  have hdir : ∀ m, d'.get? spot.place ≠ some (.dir m) := fun m hm => by
    obtain ⟨x, t, hfile⟩ := hold _ hm
    cases hfile
  have hparent : ∀ q c, spot.place = q ++ [c] → ∃ m, d'.get? q = some (.dir m) := by
    have hon := spot_of_follow hfollow
    cases spot with
    | «at» q e => exact htree.parent (ne_none_of_get? hon)
    | free parent c =>
      intro q c' heq
      obtain ⟨m, hm⟩ := h.parent_of_follow hfollow' q c' (hspot.trans heq)
      obtain ⟨rfl, -⟩ := List.append_inj' heq rfl
      obtain ⟨e, he⟩ := Option.ne_none_iff_exists'.1 hon.2
      obtain rfl : e = .dir m := Option.some.inj ((hs.sub he).symm.trans hm)
      exact ⟨m, he⟩
  have hother {q : Place} {e : Entry} (hq : (d'.put spot.place (.file x [])).get? q = some e)
      (he : ∀ x t, e ≠ .file x t) : d.get? q = some e := by
    refine hs.sub ?_
    rwa [get?_put_of_ne] at hq
    rintro rfl
    rw [get?_put_self hne] at hq
    exact he x [] (Option.some.inj hq).symm
  refine ⟨hplace, within_put (· = root ++ ns) hplace d' _, h.of_find hnames hp ?_ ?_ ?_ hfind'⟩
  · exact ⟨hs.cwd.symm, fun hq => ⟨_, hother hq (by simp)⟩, fun hq => hother hq (by simp)⟩
  · exact htree.put hparent hne (.inr fun q => htree.get?_below hdir)
  · exact fun q t hq ht => h.noLink hq (hother ht (by simp))

end FileCourier.Disk
