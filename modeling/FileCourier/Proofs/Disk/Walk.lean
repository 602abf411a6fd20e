import FileCourier.Proofs.Disk.Entries

/-!
# Walking along names

A walk passes through directories (`Passes`) and ends at the first component that is none
(`Ends`): `reach_append` and `exists_passes_ends` take `reach` apart into the two. A change that
keeps directories and links (`Keeps`) leaves every walk as it was, so a path leads to the same spot,
whatever that holds now (`find_of_keeps`).
-/

namespace FileCourier.Disk

/-- A component that is looked up. -/
structure Named (c : Bytes) : Prop where
  ne_dot : c ≠ Path.dot
  ne_dotDot : c ≠ Path.dotDot
  short : c.length ≤ maxName

/-- The names lead from one place to another through directories only. -/
inductive Passes (d : Disk) : Place → List Bytes → Place → Prop
  | nil {p : Place} : Passes d p [] p
  | dot {p q : Place} {r : List Bytes} : Passes d p r q → Passes d p (Path.dot :: r) q
  | dotDot {p q : Place} {r : List Bytes} :
      Passes d p.dropLast r q → Passes d p (Path.dotDot :: r) q
  | dir {p q : Place} {c : Bytes} {r : List Bytes} {m : Nat} : Named c →
      d.get? (p ++ [c]) = some (.dir m) → Passes d (p ++ [c]) r q → Passes d p (c :: r) q

/-- How a walk ends that can pass no further. -/
inductive Ends (d : Disk) (b : Bool) (p : Place) : List Bytes → Reach → Prop
  | here {e : Entry} : d.get? p = some e → Ends d b p [] (.spot (.at p e))
  | nowhere : d.get? p = none → Ends d b p [] (.refused .missing)
  | tooLong {c : Bytes} {r : List Bytes} : c ≠ Path.dot → c ≠ Path.dotDot →
      maxName < c.length → Ends d b p (c :: r) (.refused .tooLong)
  | free {c : Bytes} : Named c → d.get? (p ++ [c]) = none → d.get? p ≠ none →
      Ends d b p [c] (.spot (.free p c))
  | missing {c : Bytes} {r : List Bytes} : Named c → d.get? (p ++ [c]) = none →
      ¬(r = [] ∧ d.get? p ≠ none) → Ends d b p (c :: r) (.refused .missing)
  | file {c : Bytes} {x : Bool} {s : Bytes} : Named c → d.get? (p ++ [c]) = some (.file x s) →
      Ends d b p [c] (.spot (.at (p ++ [c]) (.file x s)))
  | notDirectory {c : Bytes} {r : List Bytes} {x : Bool} {s : Bytes} : Named c →
      d.get? (p ++ [c]) = some (.file x s) → r ≠ [] → Ends d b p (c :: r) (.refused .notDirectory)
  | linkLast {c t : Bytes} : Named c → d.get? (p ++ [c]) = some (.link t) → b = false →
      Ends d b p [c] (.spot (.at (p ++ [c]) (.link t)))
  | link {c t : Bytes} {r : List Bytes} : Named c → d.get? (p ++ [c]) = some (.link t) →
      ¬(r = [] ∧ b = false) → Ends d b p (c :: r) (.link p t r)

variable {d d' : Disk} {b : Bool} {p q : Place} {names rest : List Bytes} {c : Bytes}

theorem dotDot_ne_dot : Path.dotDot ≠ Path.dot := by decide

theorem Named.not_long (h : Named c) : ¬maxName < c.length := Nat.not_lt.2 h.short

theorem reach_append (h : Passes d p names q) (rest : List Bytes) :
    d.reach b p (names ++ rest) = d.reach b q rest := by
  induction h with
  | nil => rfl
  | dot _ ih => rw [List.cons_append, reach, if_pos rfl, ih]
  | dotDot _ ih => rw [List.cons_append, reach, if_neg dotDot_ne_dot, if_pos rfl, ih]
  | dir hc he _ ih =>
    rw [List.cons_append, reach, if_neg hc.ne_dot, if_neg hc.ne_dotDot, if_neg hc.not_long, he]
    exact ih

theorem Ends.reach_eq {r : Reach} (h : Ends d b p names r) : d.reach b p names = r := by
  cases h with
  | here he | nowhere he => rw [reach, he]
  | tooLong h₁ h₂ hlong => rw [reach, if_neg h₁, if_neg h₂, if_pos hlong]
  | free hc he hp =>
    rw [reach, if_neg hc.ne_dot, if_neg hc.ne_dotDot, if_neg hc.not_long, he]
    exact if_pos ⟨rfl, hp⟩
  | missing hc he hno =>
    rw [reach, if_neg hc.ne_dot, if_neg hc.ne_dotDot, if_neg hc.not_long, he]
    exact if_neg hno
  | file hc he =>
    rw [reach, if_neg hc.ne_dot, if_neg hc.ne_dotDot, if_neg hc.not_long, he]
    exact if_pos rfl
  | notDirectory hc he hrest =>
    rw [reach, if_neg hc.ne_dot, if_neg hc.ne_dotDot, if_neg hc.not_long, he]
    exact if_neg hrest
  | linkLast hc he hb =>
    rw [reach, if_neg hc.ne_dot, if_neg hc.ne_dotDot, if_neg hc.not_long, he]
    simp [hb]
  | link hc he hno =>
    rw [reach, if_neg hc.ne_dot, if_neg hc.ne_dotDot, if_neg hc.not_long, he]
    simpa using hno

/-- Every walk passes some directories and ends. -/
theorem exists_passes_ends (d : Disk) (b : Bool) (p : Place) (names : List Bytes) :
    ∃ passed q rest, names = passed ++ rest ∧ Passes d p passed q ∧
      Ends d b q rest (d.reach b p names) := by
  induction names generalizing p with
  | nil =>
    refine ⟨[], p, [], rfl, .nil, ?_⟩
    rw [reach]
    cases he : d.get? p with
    | none => exact .nowhere he
    | some e => exact .here he
  | cons c r ih =>
    by_cases hdot : c = Path.dot
    · subst hdot
      obtain ⟨passed, q, rest, rfl, hpass, hend⟩ := ih p
      refine ⟨_, q, rest, (List.cons_append ..).symm, .dot hpass, ?_⟩
      rwa [reach, if_pos rfl]
    by_cases hdotDot : c = Path.dotDot
    · subst hdotDot
      obtain ⟨passed, q, rest, rfl, hpass, hend⟩ := ih p.dropLast
      refine ⟨_, q, rest, (List.cons_append ..).symm, .dotDot hpass, ?_⟩
      rwa [reach, if_neg hdot, if_pos rfl]
    by_cases hlong : maxName < c.length
    · have hend : Ends d b p (c :: r) (.refused .tooLong) := .tooLong hdot hdotDot hlong
      exact ⟨[], p, c :: r, rfl, .nil, hend.reach_eq ▸ hend⟩
    have hc : Named c := ⟨hdot, hdotDot, Nat.not_lt.1 hlong⟩
    have stop {res : Reach} (hend : Ends d b p (c :: r) res) : ∃ passed q rest,
        c :: r = passed ++ rest ∧ Passes d p passed q ∧ Ends d b q rest (d.reach b p (c :: r)) :=
      ⟨[], p, c :: r, rfl, .nil, hend.reach_eq ▸ hend⟩
    cases he : d.get? (p ++ [c]) with
    | none =>
      by_cases hfree : r = [] ∧ d.get? p ≠ none
      · obtain ⟨rfl, hp⟩ := hfree
        exact stop (.free hc he hp)
      · exact stop (.missing hc he hfree)
    | some e =>
      cases e with
      | dir m =>
        obtain ⟨passed, q, rest, rfl, hpass, hend⟩ := ih (p ++ [c])
        refine ⟨_, q, rest, (List.cons_append ..).symm, .dir hc he hpass, ?_⟩
        rwa [reach, if_neg hdot, if_neg hdotDot, if_neg hlong, he]
      | file x s =>
        by_cases hr : r = []
        · subst hr
          exact stop (.file hc he)
        · exact stop (.notDirectory hc he hr)
      | link t =>
        by_cases hlast : r = [] ∧ b = false
        · obtain ⟨rfl, hb⟩ := hlast
          exact stop (.linkLast hc he hb)
        · exact stop (.link hc he hlast)

/-- What the spot says of its place is so. -/
def Spot.IsOn (d : Disk) : Spot → Prop
  | .at q e => d.get? q = some e
  | .free parent name => d.get? (parent ++ [name]) = none ∧ d.get? parent ≠ none

theorem spot_of_reach {s : Spot} (h : d.reach b p names = .spot s) : s.IsOn d := by
  obtain ⟨passed, q', r, rfl, -, hend⟩ := exists_passes_ends d b p names
  rw [h] at hend
  cases hend with
  | here he => exact he
  | free _ he hp => exact ⟨he, hp⟩
  | file _ he | linkLast _ he => exact he

/-- A walk leads to a spot after it has followed so many links at most. -/
inductive Follows (d : Disk) (b : Bool) : Nat → Place → List Bytes → Spot → Prop
  | spot {n : Nat} {p : Place} {names : List Bytes} {s : Spot} :
      d.reach b p names = .spot s → Follows d b n p names s
  | link {n : Nat} {p q : Place} {names rest : List Bytes} {t : Bytes} {s : Spot} :
      d.reach b p names = .link q t rest → Follows d b n (origin q t) (route t ++ rest) s →
      Follows d b (n + 1) p names s

theorem follows_iff {s : Spot} {n : Nat} :
    d.follow b n p names = .ok s ↔ Follows d b n p names s := by
  constructor
  · intro h
    induction n generalizing p names with
    | zero =>
      rw [follow] at h
      cases hr : d.reach b p names with
      | spot =>
        rw [hr] at h
        cases h
        exact .spot hr
      | refused | link => simp [hr] at h
    | succ n ih =>
      rw [follow] at h
      cases hr : d.reach b p names with
      | spot =>
        rw [hr] at h
        cases h
        exact .spot hr
      | refused => simp [hr] at h
      | link =>
        rw [hr] at h
        exact .link hr (ih h)
  · intro h
    induction h with
    | spot hr => rw [follow, hr]
    | link hr _ ih =>
      rw [follow, hr]
      exact ih

theorem spot_of_follow {s : Spot} {n : Nat} (h : d.follow b n p names = .ok s) : s.IsOn d := by
  rw [follows_iff] at h
  induction h with
  | spot hr => exact spot_of_reach hr
  | link _ _ ih => exact ih

theorem follow_of_locate {s : Spot} {text : Bytes} (h : d.locate b text = .ok s) :
    d.follow b maxLinks (origin d.cwd text) (route text) = .ok s := by
  rw [locate] at h
  split at h
  · cases h
  split at h
  · cases h
  exact h

/-- What a path leads to stands at the place it names. -/
theorem get?_of_find {path : Path} {e : Entry} (h : d.find path = .ok (.at q e)) :
    d.get? q = some e :=
  spot_of_follow (follow_of_locate h)

/-- A free name is taken by nothing. -/
theorem get?_of_find_free {path : Path} (h : d.find path = .ok (.free p c)) :
    d.get? (p ++ [c]) = none ∧ d.get? p ≠ none :=
  spot_of_follow (follow_of_locate h)

/-! ## Changes that keep directories and links -/

/-- The directories and links of the first disk stand on the second one too. Permissions may
differ. -/
structure Keeps (d d' : Disk) : Prop where
  cwd : d'.cwd = d.cwd
  dir : ∀ {p m}, d.get? p = some (.dir m) → ∃ m', d'.get? p = some (.dir m')
  link : ∀ {p t}, d.get? p = some (.link t) → d'.get? p = some (.link t)

theorem Keeps.trans {d'' : Disk} (h : Keeps d d') (h' : Keeps d' d'') : Keeps d d'' where
  cwd := h'.cwd.trans h.cwd
  dir he := by
    obtain ⟨m, he'⟩ := h.dir he
    exact h'.dir he'
  link he := h'.link (h.link he)

/-- Whether an entry is a link. -/
def Entry.isLink : Entry → Bool
  | .link _ => true
  | _ => false

/-- Whether an entry is a directory. -/
def Entry.isDir : Entry → Bool
  | .dir _ => true
  | _ => false

/-- Whether the spot is that of a link. -/
def Spot.isLink : Spot → Bool
  | .at _ e => Entry.isLink e
  | .free _ _ => false

theorem Passes.of_dirs
    (hdir : ∀ {p m}, d.get? p = some (.dir m) → ∃ m', d'.get? p = some (.dir m'))
    (h : Passes d p names q) : Passes d' p names q := by
  induction h with
  | nil => exact .nil
  | dot _ ih => exact .dot ih
  | dotDot _ ih => exact .dotDot ih
  | dir hc he _ ih =>
    obtain ⟨m', he'⟩ := hdir he
    exact .dir hc he' ih

theorem Passes.of_keeps (hk : Keeps d d') (h : Passes d p names q) : Passes d' p names q :=
  h.of_dirs hk.dir

theorem reach_link_of_keeps {t : Bytes} (hk : Keeps d d') (h : d.reach b p names = .link q t rest) :
    d'.reach b p names = .link q t rest := by
  obtain ⟨passed, q', r, rfl, hpass, hend⟩ := exists_passes_ends d b p names
  rw [h] at hend
  cases hend with
  | link hc he hno =>
    rw [reach_append (hpass.of_keeps hk)]
    exact (Ends.link hc (hk.link he) hno).reach_eq

/-- A walk to a spot leads to whatever stands there after the change, unless that is a link. -/
theorem reach_spot_of_keeps {s : Spot} {e : Entry} (hk : Keeps d d')
    (h : d.reach b p names = .spot s) (hs : s.isLink = false)
    (he : d'.get? s.place = some e) (hel : Entry.isLink e = false) :
    d'.reach b p names = .spot (.at s.place e) := by
  obtain ⟨passed, q, r, rfl, hpass, hend⟩ := exists_passes_ends d b p names
  rw [h] at hend
  have last {c : Bytes} (hc : Named c) (he : d'.get? (q ++ [c]) = some e) :
      d'.reach b q [c] = .spot (.at (q ++ [c]) e) := by
    cases e with
    | dir m =>
      have hpass : Passes d' q [c] (q ++ [c]) := .dir hc he .nil
      exact (reach_append hpass []).trans (Ends.here he).reach_eq
    | file x s => exact (Ends.file hc he).reach_eq
    | link t => cases hel
  rw [reach_append (hpass.of_keeps hk)]
  cases hend with
  | here => exact (Ends.here he).reach_eq
  | free hc | file hc => exact last hc he
  | linkLast => cases hs

theorem follow_of_keeps {s : Spot} {e : Entry} {n : Nat} (hk : Keeps d d')
    (h : d.follow b n p names = .ok s) (hs : s.isLink = false)
    (he : d'.get? s.place = some e) (hel : Entry.isLink e = false) :
    d'.follow b n p names = .ok (.at s.place e) := by
  rw [follows_iff] at h ⊢
  induction h with
  | spot hr => exact .spot (reach_spot_of_keeps hk hr hs he hel)
  | link hr _ ih => exact .link (reach_link_of_keeps hk hr) (ih hs he)

theorem locate_of_keeps {s : Spot} {e : Entry} {text : Bytes} (hk : Keeps d d')
    (h : d.locate b text = .ok s) (hs : s.isLink = false)
    (he : d'.get? s.place = some e) (hel : Entry.isLink e = false) :
    d'.locate b text = .ok (.at s.place e) := by
  rw [locate] at h ⊢
  split at h
  · cases h
  split at h
  · cases h
  rw [if_neg ‹_›, if_neg ‹_›, hk.cwd]
  exact follow_of_keeps hk h hs he hel

theorem find_of_keeps {s : Spot} {e : Entry} {path : Path} (hk : Keeps d d')
    (h : d.find path = .ok s) (hs : s.isLink = false)
    (he : d'.get? s.place = some e) (hel : Entry.isLink e = false) :
    d'.find path = .ok (.at s.place e) :=
  locate_of_keeps hk h hs he hel

/-- Nothing but a file may be replaced. -/
theorem keeps_put {e : Entry} (h : ∀ e, d.get? p = some e → ∃ x s, e = .file x s) :
    Keeps d (d.put p e) where
  cwd := rfl
  dir he := ⟨_, by
    rw [get?_put_of_ne, he]
    rintro rfl
    obtain ⟨x, s, hfile⟩ := h _ he
    cases hfile⟩
  link he := by
    rw [get?_put_of_ne, he]
    rintro rfl
    obtain ⟨x, s, hfile⟩ := h _ he
    cases hfile

end FileCourier.Disk

/-! ## Files that are written

A path that was opened leads to an empty file, and adding bytes to that file adds them to what the
path leads to.
-/

namespace FileCourier.Disk

variable {d d' : Disk} {place : Place} {path : Path}

theorem find_put_file {s : Spot} {x : Bool} {t : Bytes} (h : d.find path = .ok s)
    (hs : ∀ e, d.get? s.place = some e → ∃ x t, e = .file x t) (hne : s.place ≠ []) :
    (d.put s.place (.file x t)).find path = .ok (.at s.place (.file x t)) := by
  have hlink : s.isLink = false := by
    cases s with
    | free => rfl
    | «at» q e =>
      obtain ⟨x, t, rfl⟩ := hs e (get?_of_find h)
      rfl
  exact find_of_keeps (keeps_put hs) h hlink (get?_put_self hne) rfl

/-- A path that was opened leads to an empty file. -/
theorem find_of_openForWriting (h : d.openForWriting path = .ok (place, d')) :
    ∃ x, d'.find path = .ok (.at place (.file x [])) := by
  rw [openForWriting] at h
  split at h
  · rename_i q x s hfind
    cases h
    have hfile := get?_of_find hfind
    refine ⟨x, find_put_file hfind (fun e he => ?_) (ne_nil_of_file hfile)⟩
    exact ⟨x, s, Option.some.inj (he.symm.trans hfile)⟩
  · cases h
  · rename_i parent name hfind
    cases h
    refine ⟨false, find_put_file hfind (fun e he => ?_) (by simp [Spot.place])⟩
    have hfree := (get?_of_find_free hfind).1
    rw [Spot.place, hfree] at he
    cases he
  · cases h

/-- A path that leads to a file can be opened, which empties the file. -/
theorem openForWriting_of_file {x : Bool} {s : Bytes}
    (h : d.find path = .ok (.at place (.file x s))) :
    d.openForWriting path = .ok (place, d.put place (.file x [])) := by
  rw [openForWriting, h]

/-- Bytes that are added to a file are found behind those it held. -/
theorem find_append {x : Bool} {s : Bytes} (h : d.find path = .ok (.at place (.file x s)))
    (t : Bytes) : (d.append place t).find path = .ok (.at place (.file x (s ++ t))) := by
  have hfile := get?_of_find h
  rw [append_of_file hfile]
  refine find_put_file h (fun e he => ?_) (ne_nil_of_file hfile)
  exact ⟨x, s, Option.some.inj (he.symm.trans hfile)⟩

theorem entryAt?_of_find {e : Entry} (h : d.find path = .ok (.at place e)) :
    d.entryAt? path = some e := by
  rw [entryAt?, h]

theorem isDirectory_of_find {m : Nat} (h : d.find path = .ok (.at place (.dir m))) :
    d.isDirectory path = true := by
  rw [isDirectory, entryAt?_of_find h]

end FileCourier.Disk
