import FileCourier.Chores
import FileCourier.Proofs.Disk.Linkless
import FileCourier.Proofs.Disk.Modes

/-!
# What is gone

What is removed at a path is gone: the path leads to nothing any more, whether or not a link at its end
would be followed (`locate_ne_of_remove`). The last name of the path has to be looked up for that
(`ne_nil_of_follow`), since a path that ends in a step may name the root. A change is `Cleared` when
nothing is left of it there.
-/

namespace FileCourier

variable {d d' : Disk} {b : Bool} {p q : Place} {names rest : List Bytes} {c text : Bytes} {e : Entry}
  {path : Path} {spot : Disk.Spot} {n : Nat}

namespace Disk

theorem Passes.ne_nil (h : Passes d p names q) (hlast : names.getLast? = some c)
    (hdot : c ≠ Path.dot) (hdotDot : c ≠ Path.dotDot) : q ≠ [] := by
  induction h with
  | nil => cases hlast
  | @dot p q r _ ih =>
    cases r with
    | nil => exact absurd (Option.some.inj hlast).symm hdot
    | cons x r => exact ih hlast
  | @dotDot p q r _ ih =>
    cases r with
    | nil => exact absurd (Option.some.inj hlast).symm hdotDot
    | cons x r => exact ih hlast
  | @dir p q x r m hx he hpass ih =>
    cases r with
    | nil =>
      cases hpass
      simp
    | cons y r => exact ih hlast

/-- Behind a link that is followed on the way stays the last name. -/
theorem getLast?_of_reach_link {t : Bytes} (h : d.reach false p names = .link q t rest) :
    (route t ++ rest).getLast? = names.getLast? := by
  obtain ⟨passed, q', r, rfl, -, hend⟩ := exists_passes_ends d false p names
  rw [h] at hend
  cases hend with
  | @link x _ _ _ _ hmore =>
    have hr : rest ≠ [] := fun hnil => hmore ⟨hnil, rfl⟩
    rw [List.getLast?_append_of_ne_nil _ hr,
      List.getLast?_append_of_ne_nil _ (List.cons_ne_nil x rest)]
    cases rest with
    | nil => exact absurd rfl hr
    | cons y r => rfl

/-- A last name that is looked up leads below the root. -/
theorem ne_nil_of_follow (h : d.follow false n p names = .ok (.at q e))
    (hlast : names.getLast? = some c) (hdot : c ≠ Path.dot) (hdotDot : c ≠ Path.dotDot) : q ≠ [] := by
  rw [follows_iff] at h
  generalize hs : Spot.at q e = s at h
  induction h with
  | @spot _ p names _ hr =>
    subst hs
    obtain ⟨passed, q', rest, rfl, hpass, hend⟩ := exists_passes_ends d false p names
    rw [hr] at hend
    cases hend with
    | here =>
      rw [List.append_nil] at hlast
      exact hpass.ne_nil hlast hdot hdotDot
    | file | linkLast => simp
  | link hreach _ ih => exact ih ((getLast?_of_reach_link hreach).trans hlast) hs

/-- The last name of a path that names something is looked up. -/
theorem exists_last_of_locateName (h : d.locateName text = .ok spot) :
    ∃ c, (Path.mk text).names.getLast? = some c ∧ c ≠ Path.dot ∧ c ≠ Path.dotDot := by
  rw [locateName] at h
  split at h
  · split at h <;> cases h
  · rename_i last hlast
    split at h
    · split at h <;> cases h
    · rename_i hstep
      exact ⟨last, hlast, not_or.1 hstep⟩

/-- A path that names something leads to it when it does not end in a slash. -/
theorem locate_of_named (h : d.locateName text = .ok spot)
    (hends : (Path.mk text).endsInSlash = false) : d.locate false text = .ok spot := by
  obtain ⟨hnames, -, hlocate⟩ := locate_of_locateName h
  rwa [Path.trimEnd_of_last (Path.last_of_not_endsInSlash hnames hends)] at hlocate

/-- What a path names is below the root. -/
theorem ne_nil_of_locateName (h : d.locateName text = .ok (.at q e)) : q ≠ [] := by
  obtain ⟨c, hlast, hdot, hdotDot⟩ := exists_last_of_locateName h
  obtain ⟨-, -, hlocate⟩ := locate_of_locateName h
  have hends : (Path.mk (Path.trimEnd text)).endsInSlash = false := by
    rw [Path.endsInSlash, beq_eq_false_iff_ne.2 (Path.getLast?_trimEnd text), Bool.false_and]
  refine ne_nil_of_follow (follow_of_locate hlocate) ?_ hdot hdotDot
  rw [route, hends, Path.names_trimEnd, if_neg Bool.false_ne_true, List.append_nil, hlast]

/-! ## Looking again -/

/-- What is no link is found whether or not a link there would be followed. -/
theorem locate_true_of_false (h : d.locate false text = .ok spot) (hs : spot.isLink = false) :
    d.locate true text = .ok spot := by
  rw [locate] at h ⊢
  split at h
  · cases h
  split at h
  · cases h
  rw [if_neg ‹_›, if_neg ‹_›]
  exact follow_true_of_false h hs

theorem locate_of_shrinks (hshrinks : Shrinks d d') (h : d'.locate b text = .ok spot) :
    ∃ spot', d.locate b text = .ok spot' ∧ spot'.place = spot.place := by
  rw [locate] at h ⊢
  split at h
  · cases h
  split at h
  · cases h
  rw [if_neg ‹_›, if_neg ‹_›, ← hshrinks.cwd]
  exact follow_of_shrinks hshrinks h

/-- A link that is left was there before. -/
theorem locate_link_of_shrinks {t : Bytes} (hshrinks : Shrinks d d')
    (h : d'.locate b text = .ok (.at q (.link t))) : d.locate b text = .ok (.at q (.link t)) := by
  obtain ⟨spot, hearlier, hplace⟩ := locate_of_shrinks hshrinks h
  have hleft : d'.get? q = some (.link t) := spot_of_follow (follow_of_locate h)
  have hon := spot_of_follow (follow_of_locate hearlier)
  rw [hearlier]
  cases spot with
  | «at» p e =>
    cases show p = q from hplace
    cases (hshrinks.sub hleft).symm.trans hon
    rfl
  | free parent c =>
    cases show parent ++ [c] = q from hplace
    cases (hshrinks.sub hleft).symm.trans hon.1

/-! ## Removing -/

/-- What is removed stood at the place that the path names, and a slash follows only the path of a
directory. -/
theorem exists_named_of_remove (h : d.remove path = .ok (some d')) :
    ∃ q e, d.locateName (systemText path) = .ok (.at q e) ∧ d' = d.drop q ∧
      ((∃ m, e = .dir m) ∨ (Path.mk (systemText path)).endsInSlash = false) := by
  simp only [remove] at h
  split at h
  · cases h
  · cases h
  · cases h
  · rename_i q m hname
    split at h
    · cases h
      exact ⟨q, _, hname, rfl, .inl ⟨m, rfl⟩⟩
    · cases h
  · rename_i q e _ hname
    split at h
    · cases h
    · rename_i hends
      cases h
      exact ⟨q, e, hname, rfl, .inr (Bool.eq_false_iff.2 hends)⟩

/-- Whatever path leads to no link, nothing is found at its end after that has been removed, and
nothing else has changed. -/
theorem locate_ne_of_remove (h : d.remove path = .ok (some d'))
    (hlink : ∀ q t, d.locate false (systemText path) ≠ .ok (.at q (.link t))) :
    ∃ q, d' = d.drop q ∧ q ≠ [] ∧ ∀ b p e, d'.locate b (systemText path) ≠ .ok (.at p e) := by
  obtain ⟨q, e, hname, rfl, hslash⟩ := exists_named_of_remove h
  obtain ⟨-, hshort, hlocate⟩ := locate_of_locateName hname
  have hstands : d.get? q = some e := spot_of_follow (follow_of_locate hlocate)
  have hne := ne_nil_of_locateName hname
  have hnoLink : Entry.isLink e = false := by
    cases e with
    | dir | file => rfl
    | link t =>
      rcases hslash with ⟨m, hm⟩ | hends
      · cases hm
      · exact absurd (locate_of_named hname hends) (hlink q t)
  have hfollowed : d.locate true (systemText path) = .ok (.at q e) := by
    rcases hslash with ⟨m, rfl⟩ | hends
    · exact locate_of_trimmed (keeps_refl d) hshort hlocate rfl hstands
    · exact locate_true_of_false (locate_of_named hname hends) hnoLink
  have hshrinks : Shrinks d (d.drop q) := shrinks_drop hne fun t ht => by
    rw [hstands] at ht
    cases ht
    cases hnoLink
  have hgone (p : Place) (e' : Entry) : (d.drop q).locate true (systemText path) ≠ .ok (.at p e') := by
    intro hlater
    obtain ⟨spot, hearlier, hplace⟩ := locate_of_shrinks hshrinks hlater
    rw [hfollowed] at hearlier
    cases hearlier
    have hon : (d.drop q).get? p = some e' := spot_of_follow (follow_of_locate hlater)
    rw [← show q = p from hplace, get?_drop_self hne] at hon
    cases hon
  refine ⟨q, rfl, hne, fun b p e' hlater => ?_⟩
  cases b with
  | true => exact hgone p e' hlater
  | false =>
    cases e' with
    | dir | file => exact hgone p _ (locate_true_of_false hlater rfl)
    | link t => exact hlink p t (locate_link_of_shrinks hshrinks hlater)

/-- Nothing has changed but at one place, and there only so that the path leads to nothing any more. -/
def Cleared (path : Path) (d d' : Disk) : Prop :=
  d' = d ∨ (∃ q, Within (· = q) d d') ∧ ∀ b p e, d'.locate b (systemText path) ≠ .ok (.at p e)

end Disk

theorem Chores.snd_discard (p : Path) (d : Disk) :
    (discard p d).2 = match d.remove p with | .ok (some d) => d | _ => d := rfl

namespace Disk

theorem cleared_discard (hlink : ∀ q t, d.locate false (systemText path) ≠ .ok (.at q (.link t))) :
    Cleared path d (Chores.discard path d).2 := by
  rw [Chores.snd_discard]
  split
  · rename_i hremove
    obtain ⟨q, rfl, -, hgone⟩ := locate_ne_of_remove hremove hlink
    exact .inr ⟨⟨q, within_drop (s := (· = q)) rfl d⟩, hgone⟩
  · exact .inl rfl

end Disk

end FileCourier

/-! ## What a path names

A path that leads to a file ends with the name of that file, or of a link, and that is what is removed
at the path (`Grounded.exists_named`).
-/

namespace FileCourier.Disk

open FileCourier.Path (Reads)

variable {d d' : Disk} {absolute : Bool} {parent q place : Place} {m n : Nat} {c : Bytes}
  {ns : List Bytes} {path : Path} {e : Entry} {x : Bool} {s : Bytes}

/-- What stands under a last name that is not followed. -/
theorem follow_singleton_of_not_dir (hc : Named c) (h : d.get? (q ++ [c]) = some e)
    (hdir : Entry.isDir e = false) (n : Nat) :
    d.follow false n q [c] = .ok (.at (q ++ [c]) e) := by
  cases e with
  | dir => cases hdir
  | file => exact follow_singleton_of_some hc h rfl false n
  | link t => rw [follow, (Ends.linkLast hc h rfl).reach_eq]

/-- The names of a path but the last lead to a directory: the path names what is under the last there. -/
theorem exists_locateName_eq (hp : Reads absolute (ns ++ [c]) path)
    (hshort : path.text.length ≤ maxPath) (hc : Named c)
    (hns : d.follow true maxLinks (d.base absolute) ns = .ok (.at parent (.dir m))) :
    ∃ k, d.locateName path.text = d.follow false k parent [c] := by
  have hlast : (Path.mk path.text).names.getLast? = some c := by
    rw [show (Path.mk path.text).names = ns ++ [c] from hp.names_eq, List.getLast?_concat]
  have hstep : ¬(c = Path.dot ∨ c = Path.dotDot) := not_or.2 ⟨hc.ne_dot, hc.ne_dotDot⟩
  obtain ⟨k, hk⟩ := follow_append hns (List.cons_ne_nil c []) false
  refine ⟨k, ?_⟩
  rw [locateName, hlast]
  dsimp only
  rw [if_neg hstep, if_neg (Nat.not_lt.2 hshort), Path.trimEnd_of_last (hp.last (by simp)),
    locate_of_reads hp (hp.text_ne_nil (by simp)) hshort, hk]

theorem locateName_of_follow (hp : Reads absolute (ns ++ [c]) path)
    (hshort : path.text.length ≤ maxPath) (hc : Named c)
    (hns : d.follow true maxLinks (d.base absolute) ns = .ok (.at parent (.dir m)))
    (he : d.get? (parent ++ [c]) = some e) (hdir : Entry.isDir e = false) :
    d.locateName path.text = .ok (.at (parent ++ [c]) e) := by
  obtain ⟨k, hk⟩ := exists_locateName_eq hp hshort hc hns
  rw [hk, follow_singleton_of_not_dir hc he hdir]

/-- A path that leads to a file names that file or a link. What it names is what is removed there, also
after changes that keep directories and links. -/
theorem Grounded.exists_named (hd : d.Grounded)
    (hfind : d.find path = .ok (.at place (.file x s))) : ∃ q e,
      q ≠ [] ∧ d.get? q = some e ∧ (q = place ∨ ∃ l, e = .link l) ∧
      ∀ {d' e'}, Keeps d d' → d'.get? q = some e' → Entry.isDir e' = false →
        d'.locateName (systemText path) = .ok (.at q e') ∧
          d'.remove path = .ok (some (d'.drop q)) := by
  rw [← find_readPart] at hfind
  have hnul := no_nul_readPart path
  have hshort := short_of_find hnul hfind
  obtain ⟨ns, parent, c, m, hreads, hc, hns⟩ := hd.exists_last hnul hfind nofun
  have hlast : ∃ k, d.follow true k parent [c] = .ok (.at place (.file x s)) := by
    obtain ⟨k, hk⟩ := follow_append hns (List.cons_ne_nil c []) true
    rw [find_of_reads hreads (text_ne_nil_of_find hnul hfind) hshort, hk] at hfind
    exact ⟨k, hfind⟩
  obtain ⟨k, hlast⟩ := hlast
  obtain ⟨e, he⟩ := Option.ne_none_iff_exists'.1 (get?_of_follow_cons hc.ne_dot hc.ne_dotDot hlast)
  refine ⟨parent ++ [c], e, by simp, he, ?_, fun {d' e'} hk he' hdir => ?_⟩
  · cases e with
    | dir k' =>
      cases (follow_singleton_of_some hc he rfl true k).symm.trans hlast
    | file y t =>
      cases (follow_singleton_of_some hc he rfl true k).symm.trans hlast
      exact .inl rfl
    | link l => exact .inr ⟨l, rfl⟩
  · obtain ⟨m', hns'⟩ := hk.exists_follow hns
    have hname := locateName_of_follow hreads hshort hc hns' he' hdir
    refine ⟨hname, ?_⟩
    have hends : (Path.mk (systemText path)).endsInSlash = false := hreads.endsInSlash_eq
    rw [remove, show d'.locateName (systemText path) = _ from hname]
    cases e' with
    | dir => cases hdir
    | file | link =>
      dsimp only
      rw [if_neg (Bool.eq_false_iff.1 hends)]

end FileCourier.Disk
