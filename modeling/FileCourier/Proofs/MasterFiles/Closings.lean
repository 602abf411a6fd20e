import FileCourier.Proofs.MasterFiles.Accepted

/-!
# Replies without data

A reply without data closes a pass over the file. One `getFile` sees at most three of them: it ends
with the first that its content satisfies, and with the third mismatch (`getFile_closings`). Each of
its passes asks once more than it gets pieces, at most.
-/

namespace FileCourier

/-- The reply of an exchange, if it is one without data. -/
def Exchange.closing? (x : Exchange) : Option Message :=
  match x.answer with
  | .ok reply => if reply.bytesOr "data" [] = [] then some reply else none
  | .error _ => none

/-- Whether the answer is a reply without data. -/
def Exchange.closes (x : Exchange) : Bool := x.closing?.isSome

/-- Whether the answer is a reply with data. -/
def Exchange.carries (x : Exchange) : Bool :=
  match x.answer with
  | .ok reply => !(reply.bytesOr "data" []).isEmpty
  | .error _ => false

namespace MasterFiles

variable {σ : Type} {m : MasterFiles σ} {l : Digests} {r : FileRequest} {relative : Bytes}
  {dest path : Path} {n : Nat} {t t' : Tally} {log pre post : List Exchange} {x : Exchange}
  {request reply : Message} {answer : Except Fault Message} {result : Except Fault Fetched}

/-- The passes over the file: the exchanges between the replies without data. -/
def passes (log : List Exchange) : List (List Exchange) := log.splitOnP Exchange.closes

/-- What has to follow a mismatch when `left` more replies are awaited: the file is asked for from
its start, unless there is no patience left. -/
def Restarts (r : FileRequest) (left : Nat) (post : List Exchange)
    (result : Except Fault Fetched) : Prop :=
  match post with
  | [] => left = 0 ∧ result = .error .impatient
  | x :: _ => ∃ relative, VirtualPath.strip? r.path = some relative ∧
      AsksFor r relative 0 x.request

/-- What follows a reply without data when `earlier` such replies came before it and `left` more
replies are awaited. -/
def Verdict.Settles (r : FileRequest) (dest : Path) (earlier left : Nat) (post : List Exchange)
    (result : Except Fault Fetched) : Verdict → Prop
  | .unannounced | .matched => post = [] ∧ result = .ok (.stored dest)
  | .mismatched =>
    if earlier < 2 then Restarts r left post result else post = [] ∧ result = .ok (.stored dest)
  | .undigested cause => post = [] ∧ result = .error (.digest cause)

/-! ## Closing replies along a course -/

theorem closes_of_data_nil (h : reply.bytesOr "data" [] = []) :
    (⟨request, .ok reply⟩ : Exchange).closes = true := by
  simp only [Exchange.closes, Exchange.closing?, h, if_true, Option.isSome_some]

theorem closes_of_data_ne_nil (h : reply.bytesOr "data" [] ≠ []) :
    (⟨request, .ok reply⟩ : Exchange).closes = false := by
  simp only [Exchange.closes, Exchange.closing?, if_neg h, Option.isSome_none]

theorem carries_of_data_ne_nil (h : reply.bytesOr "data" [] ≠ []) :
    (⟨request, .ok reply⟩ : Exchange).carries = true := by
  simp only [Exchange.carries, List.isEmpty_eq_false_iff.2 h, Bool.not_false]

/-- What makes a course go on is a piece or a mismatch, and only a mismatch closes a pass. -/
theorem mismatches_of_next_more (request : Message) (h : t.next l r answer = .more t') :
    t'.mismatches = t.mismatches + if (⟨request, answer⟩ : Exchange).closes then 1 else 0 := by
  obtain ⟨reply, rfl, ⟨hdata, hsame⟩ | ⟨hdata, -, -, rfl⟩⟩ := Tally.next_more h
  · rw [closes_of_data_ne_nil hdata, hsame]
    rfl
  · rw [closes_of_data_nil hdata]
    rfl

theorem mismatches_lt_of_next_more (h : t.next l r answer = .more t')
    (hfew : t.mismatches < maxAttempts) : t'.mismatches < maxAttempts := by
  obtain ⟨reply, -, ⟨-, hsame⟩ | ⟨-, -, hmore, rfl⟩⟩ := Tally.next_more h
  · rw [hsame]
    exact hfew
  · exact hmore

/-- As long as a course goes on, its mismatches are its replies without data. -/
theorem Course.mismatches_eq (h : Course l r relative dest n t (pre ++ x :: post) result t') :
    (pre.foldl (Tally.after l r) t).mismatches = t.mismatches + pre.countP Exchange.closes := by
  induction pre generalizing n t with
  | nil => rfl
  | cons y pre ih =>
    rw [List.cons_append] at h
    generalize hlog : pre ++ x :: post = log at h
    cases h with
    | more hnext hrest =>
      subst hlog
      have hmismatches := mismatches_of_next_more (pieceRequest r relative t.content.length) hnext
      rw [List.foldl_cons, Tally.after, hnext, List.countP_cons]
      dsimp only
      rw [ih hrest, hmismatches]
      omega
    | stored | timeout | fault => exact absurd hlog (by simp)

theorem Course.countP_closes_le (h : Course l r relative dest n t log result t')
    (hfew : t.mismatches < maxAttempts) :
    t.mismatches + log.countP Exchange.closes ≤ maxAttempts := by
  have single {t : Tally} {x : Exchange} (hfew : t.mismatches < maxAttempts) :
      t.mismatches + [x].countP Exchange.closes ≤ maxAttempts :=
    Nat.le_trans (Nat.add_le_add_left List.countP_le_length _) hfew
  induction h with
  | impatient => exact Nat.le_of_lt hfew
  | stored | timeout | fault => exact single hfew
  | @more _ t _ _ answer _ _ hnext _ ih =>
    have hrest := ih (mismatches_lt_of_next_more hnext hfew)
    have hmismatches := mismatches_of_next_more (pieceRequest r relative t.content.length) hnext
    rw [List.countP_cons]
    omega

/-! ## Passes -/

theorem exists_passes (log : List Exchange) : ∃ pass later, passes log = pass :: later :=
  List.exists_cons_of_ne_nil (List.splitOnP_ne_nil _ log)

theorem passes_cons_of_closes (h : x.closes = true) (log : List Exchange) :
    passes (x :: log) = [] :: passes log := by
  rw [passes, List.splitOnP_cons_eq_if_modifyHead, if_pos h, passes]

theorem passes_cons_of_not_closes {pass : List Exchange} {later : List (List Exchange)}
    (h : x.closes = false) (hlog : passes log = pass :: later) :
    passes (x :: log) = (x :: pass) :: later := by
  rw [passes] at hlog
  rw [passes, List.splitOnP_cons_eq_if_modifyHead, hlog, h]
  rfl

/-- The length of a course when `j` pieces at most are left in the pass that it begins in, and `k`
at most come in each later one. -/
theorem Course.length_le {j k : Nat} {pass : List Exchange} {later : List (List Exchange)}
    (h : Course l r relative dest n t log result t') (hfew : t.mismatches < maxAttempts)
    (hpasses : passes log = pass :: later) (hpass : pass.countP Exchange.carries ≤ j)
    (hlater : ∀ pass ∈ later, pass.countP Exchange.carries ≤ k) :
    log.length ≤ j + 1 + (maxAttempts - 1 - t.mismatches) * (k + 1) := by
  induction h generalizing j pass later with
  | impatient => exact Nat.zero_le _
  | stored | timeout | fault =>
    rw [List.length_singleton]
    omega
  | @more _ t t' _ answer log _ hnext _ ih =>
    have hfew' := mismatches_lt_of_next_more hnext hfew
    obtain ⟨pass', later', hlog⟩ := exists_passes log
    -- A piece belongs to the pass that is going on; a mismatch ends it and uses up one of three.
    obtain ⟨reply, rfl, ⟨hdata, hsame⟩ | ⟨hdata, -, -, rfl⟩⟩ := Tally.next_more hnext
    · rw [passes_cons_of_not_closes (closes_of_data_ne_nil hdata) hlog] at hpasses
      cases hpasses
      rw [List.countP_cons_of_pos (carries_of_data_ne_nil hdata)] at hpass
      have hrest := ih (j := j - 1) hfew' hlog (Nat.le_sub_one_of_lt hpass) hlater
      rw [hsame] at hrest
      rw [List.length_cons]
      omega
    · rw [passes_cons_of_closes (closes_of_data_nil hdata), hlog] at hpasses
      cases hpasses
      have hrest := ih hfew' hlog (hlater pass' List.mem_cons_self)
        fun pass h => hlater pass (List.mem_cons_of_mem _ h)
      have hleft : maxAttempts - 1 - t.mismatches = maxAttempts - 1 - (t.mismatches + 1) + 1 := by
        dsimp only at hfew'
        omega
      dsimp only at hrest
      rw [List.length_cons, hleft, Nat.succ_mul]
      omega

/-! ## How a course ends -/

/-- A course stores its file with its last reply. -/
theorem Course.exists_last_of_stored (h : Course l r relative dest n t log result t')
    (hstored : result = .ok (.stored path)) :
    ∃ pre x, log = pre ++ [x] ∧ t' = pre.foldl (Tally.after l r) t ∧
      t'.next l r x.answer = .stored := by
  induction h with
  | stored hnext => exact ⟨[], _, rfl, rfl, hnext⟩
  | more hnext _ ih =>
    obtain ⟨pre, x, rfl, rfl, hlast⟩ := ih hstored
    refine ⟨_ :: pre, x, rfl, ?_, hlast⟩
    rw [List.foldl_cons, Tally.after, hnext]
  | _ => cases hstored

theorem closing?_of_data_nil (hanswer : x.answer = .ok reply)
    (hdata : reply.bytesOr "data" [] = []) : x.closing? = some reply := by
  rw [Exchange.closing?, hanswer]
  exact if_pos hdata

theorem ok_of_closing? (h : x.closing? = some reply) :
    x.answer = .ok reply ∧ reply.bytesOr "data" [] = [] := by
  rw [Exchange.closing?] at h
  cases hanswer : x.answer with
  | error e =>
    rw [hanswer] at h
    cases h
  | ok reply' =>
    rw [hanswer] at h
    dsimp only at h
    split at h
    · rename_i hdata
      cases h
      exact ⟨rfl, hdata⟩
    · cases h

/-- What a course has stored satisfied its last reply, unless that was the third mismatch. -/
theorem Course.last_of_stored (h : Course l r relative dest n {} log result t)
    (hstored : result = .ok (.stored path)) :
    ∃ pre x reply, log = pre ++ [x] ∧ x.closing? = some reply ∧
      (verdict l t.content reply = .unannounced ∨ verdict l t.content reply = .matched ∨
        verdict l t.content reply = .mismatched ∧ pre.countP Exchange.closes = 2) := by
  obtain ⟨pre, x, rfl, hlast, hnext⟩ := h.exists_last_of_stored hstored
  obtain ⟨reply, hanswer, hdata, hverdict⟩ := Tally.next_stored hnext
  have hclosing := closing?_of_data_nil hanswer hdata
  have hcloses : x.closes = true := by rw [Exchange.closes, hclosing, Option.isSome_some]
  have hmismatches := h.mismatches_eq
  rw [← hlast, Nat.zero_add] at hmismatches
  have hfew := h.countP_closes_le (by decide)
  rw [List.countP_append, List.countP_singleton, if_pos hcloses, Nat.zero_add] at hfew
  refine ⟨pre, x, reply, rfl, hclosing, ?_⟩
  rcases hverdict with h | h | ⟨h, hmany⟩
  · exact .inl h
  · exact .inr (.inl h)
  · rw [hmismatches] at hmany
    exact .inr (.inr ⟨h, Nat.le_antisymm (Nat.le_of_succ_le_succ hfew) (Nat.le_of_succ_le_succ hmany)⟩)

theorem Course.of_next_stored (h : Course l r relative dest n t (x :: post) result t')
    (hnext : t.next l r x.answer = .stored) : post = [] ∧ result = .ok (.stored dest) := by
  cases h with
  | stored => exact ⟨rfl, rfl⟩
  | timeout hother | fault hother | more hother =>
    rw [hother] at hnext
    cases hnext

theorem Course.of_next_fault {e : Fault} (h : Course l r relative dest n t (x :: post) result t')
    (hnext : t.next l r x.answer = .fault e) : post = [] ∧ result = .error e := by
  cases h with
  | fault hfault =>
    rw [hfault] at hnext
    cases hnext
    exact ⟨rfl, rfl⟩
  | stored hother | timeout hother | more hother =>
    rw [hother] at hnext
    cases hnext

theorem Course.of_next_more {s : Tally} (h : Course l r relative dest n t (x :: post) result t')
    (hnext : t.next l r x.answer = .more s) : Course l r relative dest (n - 1) s post result t' := by
  cases h with
  | more hmore hrest =>
    rw [hmore] at hnext
    cases hnext
    exact hrest
  | stored hother | timeout hother | fault hother =>
    rw [hother] at hnext
    cases hnext

/-- What follows a reply without data in a course. -/
theorem Course.settles (hrelative : VirtualPath.strip? r.path = some relative)
    (h : Course l r relative dest n t (x :: post) result t') (hclosing : x.closing? = some reply) :
    (verdict l t.content reply).Settles r dest t.mismatches (n - 1) post result := by
  obtain ⟨hanswer, hdata⟩ := ok_of_closing? hclosing
  cases hverdict : verdict l t.content reply with
  | unannounced | matched =>
    have hnext : t.next l r x.answer = .stored := by
      simp only [hanswer, Tally.next, hdata, hverdict]
    exact h.of_next_stored hnext
  | undigested cause =>
    have hnext : t.next l r x.answer = .fault (.digest cause) := by
      simp only [hanswer, Tally.next, hdata, hverdict]
    exact h.of_next_fault hnext
  | mismatched =>
    rw [Verdict.Settles]
    split
    · rename_i hearlier
      have hfew : t.mismatches + 1 < maxAttempts := Nat.succ_lt_succ hearlier
      have hnext : t.next l r x.answer = .more ⟨[], t.mismatches + 1⟩ := by
        simp only [hanswer, Tally.next, hdata, hverdict, if_pos hfew]
      have hrest := h.of_next_more hnext
      cases post with
      | nil =>
        generalize n - 1 = left at hrest ⊢
        cases hrest
        exact ⟨rfl, rfl⟩
      | cons y post =>
        refine ⟨relative, hrelative, ?_⟩
        rw [hrest.request_eq]
        exact asksFor_pieceRequest r relative 0
    · rename_i hlate
      have hmany : ¬t.mismatches + 1 < maxAttempts := fun h => hlate (Nat.lt_of_succ_lt_succ h)
      have hnext : t.next l r x.answer = .stored := by
        simp only [hanswer, Tally.next, hdata, hverdict, if_neg hmany]
      exact h.of_next_stored hnext

/-! ## Whole runs -/

theorem Unopened.length_le {disk disk' : Disk}
    (h : Unopened m r relative disk log result disk') : log.length ≤ 1 := by
  cases h with
  | unavailable | refused | impatient => exact Nat.zero_le 1
  | timeout | fault | notFound | unstarted => exact Nat.le_refl 1

/-- A `getFile` goes through a course over the file that it opens, or opens none, asks once at most
and stores nothing. -/
theorem getFile_opened_or_not (m : MasterFiles σ) (r : FileRequest) (w : World σ) :
    (∃ relative dest t, VirtualPath.strip? r.path = some relative ∧
      m.destination? r w = some dest ∧
      Course m.digests r relative dest m.patience {} (m.exchanges r w) (m.getFile r w).1 t ∧
      ∃ x, (m.getFile r w).2.disk.entryAt? dest = some (.file x t.content)) ∨
    (m.destination? r w = none ∧ (m.exchanges r w).length ≤ 1 ∧
      ∀ path, (m.getFile r w).1 ≠ .ok (.stored path)) := by
  cases hstrip : VirtualPath.strip? r.path with
  | none =>
    right
    rw [destination?, hstrip, exchanges_unmarked m w hstrip, getFile_unmarked m w hstrip]
    exact ⟨rfl, Nat.zero_le 1, fun path h => by cases h⟩
  | some relative =>
    rw [destination?, hstrip, Option.bind_some]
    cases getFile_account m w hstrip with
    | opened hopened hcourse hend => exact .inl ⟨relative, _, _, rfl, hopened, hcourse, hend⟩
    | unopened hclosed hunopened =>
      exact .inr ⟨hclosed, hunopened.length_le, hunopened.not_stored⟩

/-- Whatever the master answers: one `getFile` takes at most three replies without data. It ends with
the first one that announces no digest or that of the bytes taken since the file was last empty;
after a mismatch it starts over, twice at most. What it stores has satisfied the last reply, or is
what the third mismatch left; and when no pass has more than `k` pieces, it asks at most
`3 * (k + 1)` times. -/
theorem getFile_closings (m : MasterFiles σ) (r : FileRequest) (w : World σ) :
    (m.exchanges r w).countP Exchange.closes ≤ 3 ∧
    (m.destination? r w = none → (m.exchanges r w).length ≤ 1) ∧
    (∀ dest, m.destination? r w = some dest →
      ∀ pre x post reply, m.exchanges r w = pre ++ x :: post → x.closing? = some reply →
        (verdict m.digests (tally m.digests r pre).content reply).Settles r dest (pre.countP Exchange.closes)
          (m.patience - pre.length - 1) post (m.getFile r w).1) ∧
    (∀ path, (m.getFile r w).1 = .ok (.stored path) →
      ∃ pre x reply executable content, m.exchanges r w = pre ++ [x] ∧ x.closing? = some reply ∧
        (m.getFile r w).2.disk.entryAt? path = some (.file executable content) ∧
        (verdict m.digests content reply = .unannounced ∨ verdict m.digests content reply = .matched ∨
          verdict m.digests content reply = .mismatched ∧ pre.countP Exchange.closes = 2)) ∧
    ∀ k, (∀ pass ∈ passes (m.exchanges r w), pass.countP Exchange.carries ≤ k) →
      (m.exchanges r w).length ≤ 3 * (k + 1) := by
  rcases getFile_opened_or_not m r w with
    ⟨relative, dest, t, hrelative, hdest, hcourse, hend⟩ | ⟨hclosed, hlength, hnotStored⟩
  · rw [hdest]
    refine ⟨?_, nofun, fun dest' h pre x post reply hlog hclosing => ?_, fun path hstored => ?_,
      fun k hk => ?_⟩
    · have hcount := hcourse.countP_closes_le (by decide)
      exact Nat.le_trans (Nat.le_add_left _ _) hcount
    · cases h
      rw [hlog] at hcourse
      have hmismatches := hcourse.mismatches_eq
      rw [Nat.zero_add] at hmismatches
      have hsettles := hcourse.suffix.settles hrelative hclosing
      rw [hmismatches] at hsettles
      exact hsettles
    · obtain ⟨pre, x, reply, hlog, hclosing, hverdict⟩ := hcourse.last_of_stored hstored
      obtain rfl := hcourse.dest_of_stored hstored
      obtain ⟨executable, hfile⟩ := hend
      exact ⟨pre, x, reply, executable, t.content, hlog, hclosing, hfile, hverdict⟩
    · obtain ⟨pass, later, hpasses⟩ := exists_passes (m.exchanges r w)
      rw [hpasses] at hk
      have hall := hcourse.length_le (by decide) hpasses (hk pass List.mem_cons_self)
        fun pass h => hk pass (List.mem_cons_of_mem _ h)
      have hthree : maxAttempts - 1 - ({} : Tally).mismatches = 2 := rfl
      rw [hthree] at hall
      omega
  · have hcount : (m.exchanges r w).countP Exchange.closes ≤ 1 :=
      Nat.le_trans List.countP_le_length hlength
    rw [hclosed]
    refine ⟨by omega, fun _ => hlength, nofun, fun path h => absurd h (hnotStored path),
      fun k _ => by omega⟩

/-- A master that announces a wrong digest for each of three downloads. -/
def thriceWrong : World (List Message) :=
  ⟨⟨[], []⟩, (List.replicate 3 [.ofList [("data", .bytes "ab")],
    .ofList [("hsum", .bytes "00")]]).flatten⟩

theorem getFile_closings_thriceWrong :
    (∀ pass ∈ passes (playing.exchanges plainRequest thriceWrong),
        pass.countP Exchange.carries ≤ 1) ∧
      (playing.exchanges plainRequest thriceWrong).length ≤ 3 * (1 + 1) :=
  have hpasses : ∀ pass ∈ passes (playing.exchanges plainRequest thriceWrong),
      pass.countP Exchange.carries ≤ 1 := by decide +kernel
  ⟨hpasses, (getFile_closings playing plainRequest thriceWrong).2.2.2.2 1 hpasses⟩

end MasterFiles

end FileCourier
