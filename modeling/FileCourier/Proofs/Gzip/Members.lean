import FileCourier.Proofs.Gzip.Extending

/-!
# Members one after the other

However much of a member is handed over by one call, a member that ends well gives its data and goes on
with what stands behind it (`drain_finished`), and one that fails gives an error that depends on the
data before the failure only by its length (`drain_failed`). So the members of an input are taken one by
one (`expand_of_member`), and gzip data is expanded alike whatever gzip data stands behind it
(`expand_append`).
-/

namespace FileCourier.Gzip

variable {d : Decoding} {fuel : Nat} {rest s r g out : Bytes} {reads : Bool}

theorem portion_pos : 0 < portion := by decide

/-! ## One call -/

theorem drain_of_ongoing (h : d.status = .ongoing)
    (hmore : (rest.isEmpty && decide (d.output.length < portion)) = false) :
    drain fuel d rest = (drain fuel d.next rest).map (d.output ++ ·) := by
  rw [drain.eq_def]
  split
  · cases h.symm.trans ‹d.status = .broken›
  · cases h.symm.trans ‹d.status = .stuck›
  · cases h.symm.trans ‹d.status = .finished›
  · rw [hmore, if_neg Bool.false_ne_true]

theorem drain_of_truncated (h : d.status = .ongoing) (hshort : d.output.length < portion) :
    drain fuel d [] = .error .truncated := by
  rw [drain.eq_def]
  split
  · cases h.symm.trans ‹d.status = .broken›
  · cases h.symm.trans ‹d.status = .stuck›
  · cases h.symm.trans ‹d.status = .finished›
  · rw [decide_eq_true hshort]
    rfl

theorem drain_of_finished (h : d.status = .finished) :
    drain fuel d rest =
      if rest.isEmpty then .ok d.output
      else
        match fuel with
        | 0 => .error .corrupt
        | fuel + 1 =>
          (drain fuel (Decoding.start rest).1 (Decoding.start rest).2).map (d.output ++ ·) := by
  rw [drain.eq_def]
  split
  · cases h.symm.trans ‹d.status = .broken›
  · cases h.symm.trans ‹d.status = .stuck›
  · rfl
  · cases h.symm.trans ‹d.status = .ongoing›

theorem drain_of_corrupt (h : d.status = .broken ∨ d.status = .stuck) :
    drain fuel d rest = .error .corrupt := by
  rw [drain.eq_def]
  split
  · rfl
  · rfl
  · rcases h with h | h <;> cases h.symm.trans ‹d.status = .finished›
  · rcases h with h | h <;> cases h.symm.trans ‹d.status = .ongoing›

/-! ## All calls for a member -/

/-- More than one portion is pending, so one is handed over and the rest is for later calls. -/
theorem drain_of_pending {p : Bytes} {ending : Except Fault Unit} (h : portion < p.length) :
    drain fuel ⟨p, ending, reads⟩ rest =
      (drain fuel ⟨p.drop portion, ending, false⟩ rest).map (p.take portion ++ ·) := by
  refine drain_of_ongoing (if_pos h) ?_
  have hfull : ¬(p.take portion).length < portion := by
    rw [List.length_take]
    omega
  exact Bool.and_eq_false_iff.2 (.inr (decide_eq_false hfull))

theorem map_append_map_append (result : Except GzipError Bytes) (a b : Bytes) :
    (result.map (b ++ ·)).map (a ++ ·) = result.map (a ++ b ++ ·) := by
  cases result with
  | error e => rfl
  | ok x => exact congrArg Except.ok (List.append_assoc a b x).symm

/-- A member that ends well gives its data, followed by that of the members behind it. -/
theorem drain_finished (fuel : Nat) (p rest : Bytes) (reads : Bool) :
    drain fuel ⟨p, .ok (), reads⟩ rest =
      if rest.isEmpty then .ok p
      else
        match fuel with
        | 0 => .error .corrupt
        | fuel + 1 => (drain fuel (Decoding.start rest).1 (Decoding.start rest).2).map (p ++ ·) := by
  induction hn : p.length using Nat.strongRecOn generalizing p reads with
  | ind n ih =>
    subst hn
    by_cases hlong : portion < p.length
    · have hshorter : (p.drop portion).length < p.length := by
        rw [List.length_drop]
        have hpos := portion_pos
        omega
      rw [drain_of_pending hlong, ih _ hshorter _ _ rfl]
      cases rest with
      | nil => exact congrArg Except.ok (List.take_append_drop portion p)
      | cons c rest =>
        cases fuel with
        | zero => rfl
        | succ fuel =>
          exact (map_append_map_append _ _ _).trans (by rw [List.take_append_drop]; rfl)
    · have hout : p.take portion = p := List.take_of_length_le (Nat.not_lt.1 hlong)
      have hstatus : (Decoding.mk p (.ok ()) reads).status = .finished := if_neg hlong
      rw [drain_of_finished hstatus, Decoding.output, hout]

/-- How a failure is reported behind `n` bytes of data. An input that stops is corrupt rather than
truncated when the last of the data fills a portion, or when nothing of it has been read. -/
def blame (e : Fault) (reads : Bool) (n : Nat) : GzipError :=
  match e with
  | .corrupt => .corrupt
  | .ended => if n % portion = 0 ∧ (n ≠ 0 ∨ reads = false) then .corrupt else .truncated

/-- All that is left of a member that stops fits in a portion. -/
theorem drain_ended {p : Bytes} (hfits : p.length ≤ portion) :
    drain fuel ⟨p, .error .ended, reads⟩ [] = .error (blame .ended reads p.length) := by
  have hout : p.take portion = p := List.take_of_length_le hfits
  have hlong : ¬portion < p.length := Nat.not_lt.2 hfits
  by_cases hprogress : (reads || !p.isEmpty) = true
  · have hstatus : (Decoding.mk p (.error .ended) reads).status = .ongoing := by
      simp only [Decoding.status, Decoding.output, hout, if_neg hlong, hprogress, if_true]
    by_cases hshort : p.length < portion
    · have hblame : blame .ended reads p.length = .truncated := by
        refine if_neg fun hboth => ?_
        obtain ⟨hmod, hnone⟩ := hboth
        rw [Nat.mod_eq_of_lt hshort, List.length_eq_zero_iff] at hmod
        subst hmod
        rcases hnone with hnone | hnone
        · exact hnone rfl
        · rw [hnone] at hprogress
          cases hprogress
      rw [drain_of_truncated hstatus (by rwa [Decoding.output, hout]), hblame]
    · have hpos := portion_pos
      have hfull : p.length = portion := by omega
      have hblame : blame .ended reads p.length = .corrupt := by
        refine if_pos ⟨?_, .inl ?_⟩
        · rw [hfull, Nat.mod_self]
        · omega
      have hnext : (Decoding.mk p (.error .ended) reads).next = ⟨[], .error .ended, false⟩ := by
        rw [Decoding.next, List.drop_of_length_le hfits]
      rw [drain_of_ongoing hstatus (by simp [Decoding.output, hout, hfull]), hnext,
        drain_of_corrupt (.inr rfl), hblame]
      rfl
  · obtain ⟨hreads, hempty⟩ := Bool.or_eq_false_iff.1 (Bool.eq_false_iff.2 hprogress)
    have hnil : p = [] := by simpa using hempty
    subst hnil hreads
    rw [drain_of_corrupt (.inr rfl)]
    rfl

/-- Handing over a portion does not change what is blamed in the end. -/
theorem blame_drop {p : Bytes} (e : Fault) (reads : Bool) (hlong : portion < p.length) :
    blame e false (p.drop portion).length = blame e reads p.length := by
  have hmod : (p.length - portion) % portion = p.length % portion :=
    (Nat.mod_eq_sub_mod (Nat.le_of_lt hlong)).symm
  have hleft : p.length - portion ≠ 0 := by omega
  have hnonempty : p.length ≠ 0 := by omega
  cases e <;> simp [blame, hmod, hleft, hnonempty]

/-- A member that fails gives an error that depends on its data only by the length. -/
theorem drain_failed (fuel : Nat) (p : Bytes) (e : Fault) (reads : Bool) :
    drain fuel ⟨p, .error e, reads⟩ [] = .error (blame e reads p.length) := by
  induction hn : p.length using Nat.strongRecOn generalizing p reads with
  | ind n ih =>
    subst hn
    by_cases hlong : portion < p.length
    · have hshorter : (p.drop portion).length < p.length := by
        have hpos := portion_pos
        rw [List.length_drop]
        omega
      rw [drain_of_pending hlong, ih _ hshorter _ _ rfl, blame_drop e reads hlong]
      rfl
    · cases e with
      | corrupt => exact drain_of_corrupt (.inl (if_neg hlong))
      | ended => exact drain_ended (Nat.not_lt.1 hlong)

/-! ## Member by member -/

/-- More members are allowed than there can be. -/
theorem drain_start (h : s.length ≤ fuel) :
    drain fuel (Decoding.start s).1 (Decoding.start s).2 = expand s := by
  rw [expand]
  induction hn : s.length using Nat.strongRecOn generalizing s fuel with
  | ind n ih =>
    subst hn
    cases hmember : readMember s with
    | error e =>
      simp only [Decoding.start, hmember]
      rw [drain_failed, drain_failed]
    | ok p =>
      obtain ⟨out, r⟩ := p
      have hlt := length_lt_of_readMember hmember
      simp only [Decoding.start, hmember]
      rw [drain_finished, drain_finished]
      split
      · rfl
      · obtain ⟨n, hn⟩ : ∃ n, s.length = n + 1 := Nat.exists_eq_add_one.2 (by omega)
        obtain ⟨m, hm⟩ : ∃ m, fuel = m + 1 := Nat.exists_eq_add_one.2 (by omega)
        rw [hn, hm]
        dsimp only
        rw [ih r.length hlt (by omega) rfl, ih r.length hlt (by omega) rfl]

/-- The data of an input is that of its first member and of what stands behind that. -/
theorem expand_of_member (h : readMember s = .ok (out, r)) :
    expand s = if r.isEmpty then .ok out else (expand r).map (out ++ ·) := by
  have hlt := length_lt_of_readMember h
  obtain ⟨n, hn⟩ : ∃ n, s.length = n + 1 := Nat.exists_eq_add_one.2 (by omega)
  rw [expand]
  simp only [Decoding.start, h]
  rw [drain_finished, hn]
  dsimp only
  rw [drain_start (by omega)]

/-- An input that does not begin with a member is no gzip data. -/
theorem expand_of_failure {e : Fault} (h : readMember s = .error (e, out)) :
    expand s = .error (blame e (!s.isEmpty) out.length) := by
  rw [expand]
  simp only [Decoding.start, h]
  rw [drain_failed]

/-- Gzip data is expanded alike whatever stands behind it. -/
theorem expand_append {a x : Bytes} (ha : expand a = .ok x) (hg : g ≠ []) :
    expand (a ++ g) = (expand g).map (x ++ ·) := by
  induction hn : a.length using Nat.strongRecOn generalizing a x with
  | ind n ih =>
    subst hn
    cases hmember : readMember a with
    | error e =>
      rw [expand_of_failure hmember] at ha
      cases ha
    | ok p =>
      obtain ⟨out, r⟩ := p
      obtain ⟨hlt, happend⟩ := readMember_append hmember g
      have hnonempty : (r ++ g).isEmpty = false := by simp [hg]
      rw [expand_of_member hmember] at ha
      rw [expand_of_member happend, hnonempty, if_neg Bool.false_ne_true]
      cases r with
      | nil =>
        cases ha
        rfl
      | cons c r =>
        cases hrest : expand (c :: r) with
        | error e =>
          rw [hrest] at ha
          cases ha
        | ok y =>
          rw [hrest] at ha
          cases ha
          rw [ih _ hlt hrest rfl, map_append_map_append]

end FileCourier.Gzip
