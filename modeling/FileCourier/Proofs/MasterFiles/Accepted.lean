import FileCourier.Proofs.MasterFiles.Opening

/-!
# What is accepted is what is kept

The tally of the exchanges so far says from where each request asks on, and what the file holds when
a `getFile` is over, however it ends (`getFile_accepted`).
-/

namespace FileCourier.MasterFiles

variable {σ : Type} {m : MasterFiles σ} {l : Digests} {r : FileRequest} {relative : Bytes} {dest : Path}
  {n : Nat} {t t' : Tally} {log pre post : List Exchange} {x : Exchange} {result : Except Fault Fetched}

/-- The tally after an exchange. One that ends the download leaves it as it was. -/
def Tally.after (l : Digests) (r : FileRequest) (t : Tally) (x : Exchange) : Tally :=
  match t.next l r x.answer with
  | .more t => t
  | _ => t

/-- The tally of exchanges from the start. -/
def tally (l : Digests) (r : FileRequest) (log : List Exchange) : Tally := log.foldl (Tally.after l r) {}

/-- A request for the piece of a file behind `n` bytes, read field by field. -/
structure AsksFor (r : FileRequest) (relative : Bytes) (n : Nat) (request : Message) : Prop where
  path : request.fields.get? "path" = some (.bytes relative)
  env : request.fields.get? "env" = some (.bytes r.env)
  cmd : request.fields.get? "cmd" = some (.bytes "_serve_file")
  gzip : request.fields.get? "gzip" = if 0 < r.gzip then some (.int (.ofInt r.gzip)) else none
  loc : request.fields.get? "loc" = some (.int (.ofNat n))

theorem asksFor_pieceRequest (r : FileRequest) (relative : Bytes) (n : Nat) :
    AsksFor r relative n (pieceRequest r relative n) := by
  have hgzip {key : Bytes} (h : key ≠ "gzip") : (pieceRequest r relative n).fields.get? key =
      (Message.ofList [("path", .bytes relative), ("env", .bytes r.env),
        ("cmd", .bytes "_serve_file"), ("loc", .int (.ofNat n))]).fields.get? key := by
    rw [pieceRequest]
    split
    · exact ByteMap.get?_insert_of_ne _ h _
    · rfl
  refine ⟨?_, ?_, ?_, ?_, ?_⟩
  · rw [hgzip (by decide)]
    rfl
  · rw [hgzip (by decide)]
    rfl
  · rw [hgzip (by decide)]
    rfl
  · rw [pieceRequest]
    split
    · exact ByteMap.get?_insert_self _ _ _
    · rfl
  · rw [hgzip (by decide)]
    rfl

/-! ## The tally along a course -/

/-- A course ends with the tally of its exchanges. -/
theorem Course.tally_eq (h : Course l r relative dest n t log result t') :
    log.foldl (Tally.after l r) t = t' := by
  induction h with
  | impatient => rfl
  | stored hnext =>
    rw [List.foldl_cons, List.foldl_nil, Tally.after, hnext]
  | timeout hnext =>
    rw [List.foldl_cons, List.foldl_nil, Tally.after, hnext]
  | fault hnext =>
    rw [List.foldl_cons, List.foldl_nil, Tally.after, hnext]
  | more hnext _ ih =>
    rw [List.foldl_cons, Tally.after, hnext]
    exact ih

/-- Behind the first exchanges of a course, the rest is a course from their tally. -/
theorem Course.suffix (h : Course l r relative dest n t (pre ++ x :: post) result t') :
    Course l r relative dest (n - pre.length) (pre.foldl (Tally.after l r) t) (x :: post) result
      t' := by
  induction pre generalizing n t with
  | nil => exact h
  | cons y pre ih =>
    rw [List.cons_append] at h
    generalize hlog : pre ++ x :: post = log at h
    cases h with
    | more hnext hrest =>
      subst hlog
      rw [List.foldl_cons, Tally.after, hnext, List.length_cons, Nat.add_sub_add_right]
      exact ih hrest
    | stored | timeout | fault => exact absurd hlog (by simp)

/-- The first request of a course asks for the piece behind the content so far. -/
theorem Course.request_eq (h : Course l r relative dest n t (x :: post) result t') :
    x.request = pieceRequest r relative t.content.length := by
  cases h <;> rfl

/-- A run that opens nothing asks for the first piece only. -/
theorem Unopened.request_eq {disk disk' : Disk}
    (h : Unopened m r relative disk (pre ++ x :: post) result disk') :
    pre = [] ∧ x.request = pieceRequest r relative 0 := by
  generalize hlog : pre ++ x :: post = log at h
  cases h with
  | unavailable | refused | impatient => exact absurd hlog (by simp)
  | timeout | fault | notFound | unstarted =>
    rcases List.append_eq_singleton_iff.1 hlog with ⟨hpre, hx⟩ | ⟨-, hx⟩
    · cases hx
      exact ⟨hpre, rfl⟩
    · cases hx

theorem Unopened.not_stored {disk disk' : Disk}
    (h : Unopened m r relative disk log result disk') (path : Path) :
    result ≠ .ok (.stored path) := by
  cases h <;> exact nofun

theorem exchanges_unmarked (m : MasterFiles σ) (w : World σ)
    (h : VirtualPath.strip? r.path = none) : m.exchanges r w = [] := by
  rw [exchanges, getFile_unmarked m.recorded _ h]

/-- Whatever the master answers: the requests of one `getFile` differ in nothing but where they ask
on, which is behind the bytes accepted since the file was last opened or emptied; and those bytes
are what the opened file holds in the end, also when it ends early or in a fault. -/
theorem getFile_accepted (m : MasterFiles σ) (r : FileRequest) (w : World σ) :
    (∀ pre x post, m.exchanges r w = pre ++ x :: post →
      ∃ relative, VirtualPath.strip? r.path = some relative ∧
        AsksFor r relative (tally m.digests r pre).content.length x.request) ∧
    (∀ dest, m.destination? r w = some dest →
      ∃ x, (m.getFile r w).2.disk.entryAt? dest =
        some (.file x (tally m.digests r (m.exchanges r w)).content)) ∧
    ∀ path, (m.getFile r w).1 = .ok (.stored path) → m.destination? r w = some path := by
  cases hstrip : VirtualPath.strip? r.path with
  | none =>
    rw [destination?, exchanges_unmarked m w hstrip, getFile_unmarked m w hstrip, hstrip]
    refine ⟨fun pre x post h => ?_, nofun, nofun⟩
    cases pre <;> cases h
  | some relative =>
    have account := getFile_account m w hstrip
    rw [destination?, hstrip, Option.bind_some]
    refine ⟨fun pre x post hlog => ⟨relative, rfl, ?_⟩, fun dest hopened => ?_,
      fun path hstored => ?_⟩
    · rw [hlog] at account
      cases account with
      | opened _ hcourse _ =>
        rw [hcourse.suffix.request_eq]
        exact asksFor_pieceRequest r relative _
      | unopened _ hunopened =>
        obtain ⟨rfl, hrequest⟩ := hunopened.request_eq
        rw [hrequest]
        exact asksFor_pieceRequest r relative 0
    · cases account with
      | opened hopened' hcourse hend =>
        rw [hopened] at hopened'
        cases hopened'
        rw [tally, hcourse.tally_eq]
        exact hend
      | unopened hclosed _ =>
        rw [hopened] at hclosed
        cases hclosed
    · cases account with
      | opened hopened hcourse _ =>
        rw [hcourse.dest_of_stored hstored]
        exact hopened
      | unopened _ hunopened => exact absurd hstored (hunopened.not_stored path)

/-- A request for a file in the directory where paths start. -/
def plainRequest : FileRequest := { path := "salt://f", dest := "f", env := "base" }

/-- A master that is out of reach after two pieces. -/
def cutShort : World (List Message) :=
  ⟨⟨[], []⟩, [.ofList [("data", .bytes "ab")], .ofList [("data", .bytes "c")]]⟩

theorem getFile_accepted_cutShort :
    playing.destination? plainRequest cutShort = some ⟨"f"⟩ ∧
      ∃ x, (playing.getFile plainRequest cutShort).2.disk.entryAt? ⟨"f"⟩ =
        some (.file x
          (tally playing.digests plainRequest (playing.exchanges plainRequest cutShort)).content) :=
  have hopened : playing.destination? plainRequest cutShort = some ⟨"f"⟩ := by decide +kernel
  ⟨hopened, (getFile_accepted playing plainRequest cutShort).2.1 ⟨"f"⟩ hopened⟩

end FileCourier.MasterFiles
