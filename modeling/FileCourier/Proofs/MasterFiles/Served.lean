import FileCourier.Proofs.MasterFiles.Storing

/-!
# A file that is served is stored

`Serves` describes a master that serves a content in whatever pieces it likes, compressed or
not. Fetched from it, the file is stored with exactly that content wherever it can be written, and
the requests go through it from the start to the end (`getFile_of_serves`).
-/

namespace FileCourier.MasterFiles

variable {σ : Type} {m : MasterFiles σ} {l : Digests} {r : FileRequest} {relative c name : Bytes} {n : Nat}
  {reply : Message} {t t' : Tally} {log : List Exchange} {result : Except Fault Fetched}
  {disk disk' : Disk} {dest : Path}

/-- A reply that serves the content `c` from `n` on: a piece of it that begins there, as it is or
compressed when that was asked for, or at its end no data and no digest but that of the content. It
says that the file belongs under `name`. -/
inductive ServesFrom (l : Digests) (r : FileRequest) (c name : Bytes) (n : Nat) (reply : Message) : Prop
  | raw : reply.bytesOr "dest" [] = name → reply.bytesOr "data" [] ≠ [] →
      reply.bytesOr "data" [] <+: c.drop n → ¬(0 < r.gzip ∧ reply.boolOr "gzip" false = true) →
      ServesFrom l r c name n reply
  | compressed {piece : Bytes} : reply.bytesOr "dest" [] = name → 0 < r.gzip →
      reply.boolOr "gzip" false = true → Gzip.uncompress (reply.bytesOr "data" []) = .ok piece →
      piece ≠ [] → piece <+: c.drop n → ServesFrom l r c name n reply
  | closing : reply.bytesOr "dest" [] = name → reply.bytesOr "data" [] = [] → c.length ≤ n →
      (reply.has "hsum" = false ∨
        l.hexOf (reply.bytesOr "hash_type" Digest.defaultName) c = .ok (reply.bytesOr "hsum" [])) →
      ServesFrom l r c name n reply

/-- The master serves a content under a name: whatever has happened before, it answers a request for
a piece with such a piece. -/
def Serves (m : MasterFiles σ) (r : FileRequest) (relative c name : Bytes) : Prop :=
  ∀ n s, n ≤ c.length → ∃ reply, (m.ask (pieceRequest r relative n) s).1 = .ok reply ∧
    ServesFrom m.digests r c name n reply

/-- Whenever it is reached, the master answers a request with such a reply. -/
def Replies (m : MasterFiles σ) (request : Message) (p : Message → Prop) : Prop :=
  ∀ s, (∃ what last, (m.ask request s).1 = .error (.unreachable what last)) ∨
    ∃ reply, (m.ask request s).1 = .ok reply ∧ p reply

/-- The master serves a content under a name whenever it is reached. -/
def ServesWhenReached (m : MasterFiles σ) (r : FileRequest) (relative c name : Bytes) : Prop :=
  ∀ n, n ≤ c.length → m.Replies (pieceRequest r relative n) (ServesFrom m.digests r c name n)

theorem Serves.whenReached (h : m.Serves r relative c name) :
    m.ServesWhenReached r relative c name := fun n hn s => .inr (h n s hn)

/-! ## What is served is taken -/

theorem next_of_piece {piece : Bytes} (hdata : reply.bytesOr "data" [] ≠ [])
    (hpiece : pieceOf r reply (reply.bytesOr "data" []) = .ok piece) :
    t.next l r (.ok reply) = .more { t with content := t.content ++ piece } := by
  rw [Tally.next]
  cases hcons : reply.bytesOr "data" [] with
  | nil => exact absurd hcons hdata
  | cons byte bytes =>
    rw [hcons] at hpiece
    simp only [hpiece]

theorem append_prefix_of_drop {s piece : Bytes} (hs : s <+: c) (hpiece : piece <+: c.drop s.length) :
    s ++ piece <+: c := by
  obtain ⟨rest, rfl⟩ := hs
  rw [List.drop_left] at hpiece
  exact (List.prefix_append_right_inj s).2 hpiece

/-- A reply that serves the content from where the tally stands completes it or adds to it. -/
theorem next_of_servesFrom (ht : t.content <+: c) (h : ServesFrom l r c name t.content.length reply) :
    (t.content = c ∧ t.next l r (.ok reply) = .stored) ∨
      ∃ piece, piece ≠ [] ∧ t.content ++ piece <+: c ∧
        t.next l r (.ok reply) = .more { t with content := t.content ++ piece } := by
  cases h with
  | raw _ hdata hpart hraw =>
    right
    refine ⟨_, hdata, append_prefix_of_drop ht hpart, next_of_piece hdata ?_⟩
    rw [pieceOf, if_neg (by simpa using hraw)]
  | compressed _ hasked hflag hexpand hne hpart =>
    right
    have hdata : reply.bytesOr "data" [] ≠ [] := fun hnil => by
      rw [hnil, Gzip.uncompress_nil] at hexpand
      cases hexpand
    refine ⟨_, hne, append_prefix_of_drop ht hpart, next_of_piece hdata ?_⟩
    rw [pieceOf, if_pos (by simp [hasked, hflag]), hexpand]
  | closing _ hdata hend hsum =>
    left
    have hcontent : t.content = c := ht.eq_of_length_le hend
    refine ⟨hcontent, ?_⟩
    have hverdict : verdict l t.content reply = .unannounced ∨ verdict l t.content reply = .matched := by
      rw [hcontent]
      cases hhas : reply.has "hsum" with
      | false =>
        left
        simp only [verdict, announced, hhas, Bool.false_eq_true, if_false]
      | true =>
        right
        have hsum := hsum.resolve_left (by simp [hhas])
        simp only [verdict, announced, hhas, if_true, hsum]
    rcases hverdict with h | h <;> simp only [Tally.next, hdata, h]

/-- The requests go through the content: each asks on behind the one before, from `start` to the
end. -/
def GoesThrough (r : FileRequest) (relative c : Bytes) (start : Nat) (log : List Exchange) : Prop :=
  ∃ later, log.map (·.request) = (start :: later).map (pieceRequest r relative) ∧
    (start :: later).Pairwise (· < ·) ∧ (start :: later).getLast? = some c.length

theorem goesThrough_singleton (r : FileRequest) (relative c : Bytes) (answer : Except Fault Message) :
    GoesThrough r relative c c.length [⟨pieceRequest r relative c.length, answer⟩] :=
  ⟨[], rfl, List.pairwise_singleton _ _, rfl⟩

theorem GoesThrough.cons {start next : Nat} (h : GoesThrough r relative c next log) (hlt : start < next)
    (answer : Except Fault Message) :
    GoesThrough r relative c start (⟨pieceRequest r relative start, answer⟩ :: log) := by
  obtain ⟨later, hrequests, hsorted, hlast⟩ := h
  refine ⟨next :: later, ?_, ?_, ?_⟩
  · rw [List.map_cons, List.map_cons, hrequests]
  · refine List.pairwise_cons.2 ⟨fun k hk => ?_, hsorted⟩
    rcases List.mem_cons.1 hk with rfl | hk
    · exact hlt
    · exact Nat.lt_trans hlt ((List.pairwise_cons.1 hsorted).1 k hk)
  · rwa [List.getLast?_cons_cons]

/-- The course of a download whose every answer serves the content when the master is reached: it is
stored, or the master is out of reach for one of its requests. -/
theorem Course.of_reached (h : Course l r relative dest n t log result t')
    (hserved : ∀ x ∈ log, ∀ k, k ≤ c.length → x.request = pieceRequest r relative k →
      x.TimedOut ∨ ∃ reply, x.answer = .ok reply ∧ ServesFrom l r c name k reply)
    (ht : t.content <+: c) (hn : c.length < t.content.length + n) :
    (result = .ok .timeout ∧
      ∃ x ∈ log, x.TimedOut ∧ ∃ k, k ≤ c.length ∧ x.request = pieceRequest r relative k) ∨
    (result = .ok (.stored dest) ∧ t'.content = c ∧
      GoesThrough r relative c t.content.length log) := by
  induction h with
  | impatient => exact absurd ht.length_le (Nat.not_le.2 hn)
  | @stored _ t answer hnext =>
    rcases hserved _ List.mem_cons_self _ ht.length_le rfl with ⟨what, last, rfl⟩ | ⟨reply, rfl, hserves⟩
    · cases hnext
    rcases next_of_servesFrom ht hserves with ⟨hcontent, -⟩ | ⟨piece, -, -, hmore⟩
    · rw [hcontent]
      exact .inr ⟨rfl, rfl, goesThrough_singleton r relative c _⟩
    · rw [hnext] at hmore
      cases hmore
  | timeout hnext =>
    rcases hserved _ List.mem_cons_self _ ht.length_le rfl with htimedOut | ⟨reply, rfl, hserves⟩
    · exact .inl ⟨rfl, _, List.mem_cons_self, htimedOut, _, ht.length_le, rfl⟩
    · rcases next_of_servesFrom ht hserves with ⟨-, hother⟩ | ⟨piece, -, -, hother⟩
      · cases hnext.symm.trans hother
      · cases hnext.symm.trans hother
  | fault hnext =>
    rcases hserved _ List.mem_cons_self _ ht.length_le rfl with ⟨what, last, rfl⟩ | ⟨reply, rfl, hserves⟩
    · cases hnext
    · rcases next_of_servesFrom ht hserves with ⟨-, hother⟩ | ⟨piece, -, -, hother⟩
      · cases hnext.symm.trans hother
      · cases hnext.symm.trans hother
  | @more n t _ _ answer log _ hnext _ ih =>
    rcases hserved _ List.mem_cons_self _ ht.length_le rfl with ⟨what, last, rfl⟩ | ⟨reply, rfl, hserves⟩
    · cases hnext
    rcases next_of_servesFrom ht hserves with ⟨-, hstored⟩ | ⟨piece, hne, hpart, hmore⟩
    · rw [hnext] at hstored
      cases hstored
    · rw [hnext] at hmore
      cases hmore
      -- No piece is empty, so one reply fewer is enough for what is left.
      have hpiece := List.length_pos_iff.2 hne
      have hlength : (t.content ++ piece).length = t.content.length + piece.length :=
        List.length_append
      have hlater : c.length < (t.content ++ piece).length + n := by omega
      rcases ih (fun x hx => hserved x (List.mem_cons_of_mem _ hx)) hpart hlater with
        ⟨hresult, x, hx, hcut⟩ | ⟨hresult, hcontent, hgoes⟩
      · exact .inl ⟨hresult, x, List.mem_cons_of_mem _ hx, hcut⟩
      · exact .inr ⟨hresult, hcontent, hgoes.cons (by dsimp only; omega) _⟩

/-! ## Whole runs -/

theorem ServesFrom.dest_eq (h : ServesFrom l r c name n reply) : reply.bytesOr "dest" [] = name := by
  cases h with
  | raw hdest | compressed hdest | closing hdest => exact hdest

/-- A request for a file for which something can be opened opens it, or the master is out of reach for
the first piece. -/
theorem Unopened.of_reached (h : Unopened m r relative disk log result disk')
    (hserved : ∀ x ∈ log, ∀ k, k ≤ c.length → x.request = pieceRequest r relative k →
      x.TimedOut ∨ ∃ reply, x.answer = .ok reply ∧ ServesFrom l r c name k reply)
    (hpatience : m.patience ≠ 0) (hopenable : Openable m r name disk) :
    result = .ok .timeout ∧
      ∃ x ∈ log, x.TimedOut ∧ ∃ k, k ≤ c.length ∧ x.request = pieceRequest r relative k := by
  rcases hopenable with ⟨hdest, hbegin⟩ | ⟨hdest, hname, hstarted⟩
  · cases h with
    | unavailable hother | refused hother =>
      rw [hbegin] at hother
      cases hother
    | impatient hnil | timeout hnil | fault hnil | notFound hnil | unstarted hnil =>
      exact absurd hnil hdest
  · have hbegin := begin_of_dest_nil hdest disk
    cases h with
    | unavailable hother | refused hother =>
      rw [hbegin] at hother
      cases hother
    | impatient _ hnone => exact absurd hnone hpatience
    | timeout => exact ⟨rfl, _, List.mem_cons_self, ⟨_, _, rfl⟩, 0, Nat.zero_le _, rfl⟩
    | fault _ hother =>
      rcases hserved _ List.mem_cons_self 0 (Nat.zero_le _) rfl with
        ⟨what, last, hanswer⟩ | ⟨reply, hanswer, -⟩
      · cases hanswer
        exact absurd rfl (hother what last)
      · cases hanswer
    | notFound _ hnone =>
      rcases hserved _ List.mem_cons_self 0 (Nat.zero_le _) rfl with
        ⟨what, last, hanswer⟩ | ⟨reply, hanswer, hserves⟩
      · cases hanswer
      · cases hanswer
        rw [nameIn_of_dest hserves.dest_eq hname] at hnone
        cases hnone
    | unstarted _ hsome hstart =>
      rcases hserved _ List.mem_cons_self 0 (Nat.zero_le _) rfl with
        ⟨what, last, hanswer⟩ | ⟨reply, hanswer, hserves⟩
      · cases hanswer
      · cases hanswer
        rw [nameIn_of_dest hserves.dest_eq hname] at hsome
        cases hsome
        rw [hstart] at hstarted
        cases hstarted

/-- A file that is served whenever the master is reached is stored if something can be opened for it,
and the requests go through its content, unless the master is out of reach for one of them. -/
theorem run_of_reached (hpath : r.path = VirtualPath.mark ++ relative)
    (hserves : m.ServesWhenReached r relative c name) (hpatience : c.length < m.patience)
    (hopenable : m.Openable r name w.disk) :
    ((m.getFile r w).1 = .ok .timeout ∧ ∃ x ∈ m.exchanges r w, x.TimedOut ∧
      ∃ k, k ≤ c.length ∧ x.request = pieceRequest r relative k) ∨
    ((m.getFile r w).1 = .ok (.stored (m.target r name)) ∧
      (∃ x, (m.getFile r w).2.disk.entryAt? (m.target r name) = some (.file x c)) ∧
      GoesThrough r relative c 0 (m.exchanges r w)) := by
  have hstrip := VirtualPath.strip?_eq_some_iff.2 hpath
  have hserved : ∀ x ∈ m.exchanges r w, ∀ k, k ≤ c.length →
      x.request = pieceRequest r relative k →
      x.TimedOut ∨ ∃ reply, x.answer = .ok reply ∧ ServesFrom m.digests r c name k reply := by
    intro x hx k hk hrequest
    obtain ⟨s, hanswer⟩ := answer_of_mem_exchanges hx
    rw [Exchange.TimedOut, hanswer, hrequest]
    exact hserves k hk s
  have account := getFile_account m w hstrip
  generalize m.exchanges r w = log at account hserved ⊢
  generalize (m.getFile r w).1 = result at account ⊢
  cases account with
  | unopened _ hunopened =>
    have hsome := Nat.ne_of_gt (Nat.zero_lt_of_lt hpatience)
    exact .inl (hunopened.of_reached hserved hsome hopenable)
  | @opened dest t hopened hcourse hend =>
    rcases hcourse.of_reached hserved List.nil_prefix (by simpa using hpatience) with
      hcut | ⟨hresult, hcontent, hgoes⟩
    · exact .inl hcut
    -- In the cache it is the first reply that says where the file goes.
    have htarget : dest = m.target r name := by
      rcases hopenable with ⟨hdest, -⟩ | ⟨hdest, hname, -⟩
      · rw [target, if_neg hdest]
        exact opened?_of_dest_ne_nil hdest hopened
      · obtain ⟨request, reply, rest, name', rfl, hname', rfl⟩ := opened?_of_dest_nil hdest hopened
        obtain ⟨later, hrequests, -⟩ := hgoes
        have hfirst : request = pieceRequest r relative 0 := (List.cons.inj hrequests).1
        rcases hserved _ List.mem_cons_self 0 (Nat.zero_le _) hfirst with
          ⟨what, last, hanswer⟩ | ⟨reply', hanswer, hserves'⟩
        · cases hanswer
        · cases hanswer
          rw [nameIn_of_dest hserves'.dest_eq hname] at hname'
          cases hname'
          rw [target, if_pos hdest]
    rw [htarget] at hresult hend
    rw [hcontent] at hend
    exact .inr ⟨hresult, hend, hgoes⟩

/-- A file that is served is stored if something can be opened for it, and the requests go through its
content. -/
theorem run_of_serves (hpath : r.path = VirtualPath.mark ++ relative)
    (hserves : m.Serves r relative c name) (hpatience : c.length < m.patience)
    (hopenable : m.Openable r name w.disk) :
    (m.getFile r w).1 = .ok (.stored (m.target r name)) ∧
      (∃ x, (m.getFile r w).2.disk.entryAt? (m.target r name) = some (.file x c)) ∧
      GoesThrough r relative c 0 (m.exchanges r w) := by
  rcases run_of_reached hpath hserves.whenReached hpatience hopenable with
    ⟨-, x, hx, ⟨what, last, hcut⟩, k, hk, hrequest⟩ | hstored
  · obtain ⟨s, hanswer⟩ := answer_of_mem_exchanges hx
    obtain ⟨reply, hreply, -⟩ := hserves k s hk
    rw [hcut, hrequest, hreply] at hanswer
    cases hanswer
  · exact hstored

/-- A file that is served is stored where it can be: the run ends well, the returned path leads to
exactly what is served, whatever stood there before, and the requests go through the content from its
start to its end. -/
theorem getFile_of_serves (m : MasterFiles σ) (r : FileRequest) (w : World σ)
    (relative c name : Bytes) (hpath : r.path = VirtualPath.mark ++ relative)
    (hserves : m.Serves r relative c name) (hpatience : c.length < m.patience)
    (hstorable : m.Storable r name w.disk) :
    (m.getFile r w).1 = .ok (.stored (m.target r name)) ∧
      (∃ x, (m.getFile r w).2.disk.entryAt? (m.target r name) = some (.file x c)) ∧
      ∃ locs : List Nat,
        (m.exchanges r w).map (·.request) = locs.map (pieceRequest r relative) ∧
        locs.Pairwise (· < ·) ∧ locs.head? = some 0 ∧ locs.getLast? = some c.length := by
  obtain ⟨hresult, hend, later, hrequests, hsorted, hlast⟩ :=
    run_of_serves hpath hserves hpatience hstorable.openable
  exact ⟨hresult, hend, _, hrequests, hsorted, rfl, hlast⟩

/-- A master that serves a content in pieces of two bytes and announces its digest at the end. -/
def inPairs (c name : Bytes) : MasterFiles Unit where
  settings := { Settings.defaults with cachedir := "cache" }
  digests := Digest.library
  ask := fun request s =>
    match (c.drop (request.intOr "loc" 0).toInt.toNat).take 2 with
    | [] => (.ok (.ofList [("dest", .bytes name),
        ("hsum", .bytes (Bytes.hex (Digest.Md5.hash c)))]), s)
    | piece => (.ok (.ofList [("dest", .bytes name), ("data", .bytes piece)]), s)
  patience := 10

/-- A request for a file that is to be kept in the cache. -/
def cachedRequest : FileRequest := { path := "salt://f", env := "base" }

/-- A cache with a directory where the file belongs. -/
def oldCache : World Unit where
  disk := ⟨[(["cache"], .dir 0o755), (["cache", "files"], .dir 0o700),
    (["cache", "files", "base"], .dir 0o700), (["cache", "files", "base", "f"], .dir 0o700),
    (["cache", "files", "base", "f", "old"], .file false "old")], []⟩
  beyond := ()

theorem serves_inPairs : (inPairs "abc" "f").Serves cachedRequest "f" "abc" "f" := by
  intro n s hn
  have hcases : n = 0 ∨ n = 1 ∨ n = 2 ∨ n = 3 := by
    have hlength : List.length (Bytes.ofString "abc") = 3 := by decide
    omega
  rcases hcases with rfl | rfl | rfl | rfl
  · exact ⟨_, rfl, .raw (by decide) (by decide) (by decide) (by decide)⟩
  · exact ⟨_, rfl, .raw (by decide) (by decide) (by decide) (by decide)⟩
  · exact ⟨_, rfl, .raw (by decide) (by decide) (by decide) (by decide)⟩
  · exact ⟨_, rfl, .closing (by decide) (by decide) (by decide) (.inr rfl)⟩

theorem ready_oldCache : (inPairs "abc" "f").cache.Ready oldCache.disk :=
  Cache.ready_of_no_links (Disk.isTree_of_entries (by decide))
    (Disk.get?_ne_link_of_entries (by decide)) (by decide) (by decide)

theorem getFile_of_serves_inPairs :
    (inPairs "abc" "f").Storable cachedRequest "f" oldCache.disk ∧
      ((inPairs "abc" "f").getFile cachedRequest oldCache).1 =
        .ok (.stored ((inPairs "abc" "f").target cachedRequest "f")) ∧
      (∃ x, ((inPairs "abc" "f").getFile cachedRequest oldCache).2.disk.entryAt?
        ((inPairs "abc" "f").target cachedRequest "f") = some (.file x "abc")) ∧
      ∃ locs : List Nat,
        ((inPairs "abc" "f").exchanges cachedRequest oldCache).map (·.request) =
          locs.map (pieceRequest cachedRequest "f") ∧
        locs.Pairwise (· < ·) ∧ locs.head? = some 0 ∧
        locs.getLast? = some (Bytes.ofString "abc").length :=
  have hstorable : (inPairs "abc" "f").Storable cachedRequest "f" oldCache.disk :=
    .cached rfl ready_oldCache (by decide) (by decide) (by decide)
  ⟨hstorable, getFile_of_serves _ _ oldCache "f" "abc" "f" (by decide) serves_inPairs (by decide)
    hstorable⟩

/-! ## Where a served file is not stored -/

/-- A master that serves an empty file. -/
def emptyFile (cachedir name : Bytes) : MasterFiles Unit where
  settings := { Settings.defaults with cachedir }
  digests := Digest.library
  ask := fun _ s => (.ok (.ofList [("dest", .bytes name)]), s)
  patience := 10

theorem serves_emptyFile (cachedir name : Bytes) (r : FileRequest) (relative : Bytes) :
    (emptyFile cachedir name).Serves r relative [] name := fun _ _ _ =>
  ⟨_, rfl, .closing rfl rfl (Nat.zero_le _) (.inl rfl)⟩

/-- A directory for a cache, with nothing in it. -/
def newCache : World Unit := ⟨⟨[(["cache"], .dir 0o755)], []⟩, ()⟩

/-- An environment whose name is longer than a name can be. -/
def longEnvRequest : FileRequest := { path := "salt://f", env := List.replicate 256 97 }

/-- A destination whose directory can be made, but that is then that directory. -/
def slashedRequest : FileRequest :=
  { path := "salt://f", dest := "out/", makeParents := true, env := "base" }

/-- A cache directory that is found through a directory in the cache, which stands where the file
belongs. -/
def loopedCache : World Unit where
  disk := ⟨[(["real"], .dir 0o755), (["real", "files"], .dir 0o755),
    (["real", "files", "base"], .dir 0o755), (["real", "files", "base", "f"], .dir 0o755),
    (["link"], .link "real/files/base/f/../../..")], []⟩
  beyond := ()

/-- A file that is served is not stored under a name that is too long, at a destination that ends in
a slash, or in a cache that is found through the directory that is to give place to the file. -/
theorem served_but_not_stored :
    ((emptyFile "cache" "f").Serves longEnvRequest "f" [] "f" ∧
      (emptyFile "cache" "f").cache.Ready newCache.disk ∧ Path.Relative ⟨"f"⟩ ∧
      longEnvRequest.env ≠ [] ∧ slash ∉ longEnvRequest.env ∧ longEnvRequest.env ≠ Path.dot ∧
      longEnvRequest.env ≠ Path.dotDot ∧
      ((emptyFile "cache" "f").getFile longEnvRequest newCache).1.toOption.bind Fetched.path? =
        none) ∧
    ((emptyFile "cache" "f").Serves slashedRequest "f" [] "f" ∧
      newCache.disk.entryAt? slashedRequest.dest = none ∧
      (newCache.disk.makeDirectories (Path.parent slashedRequest.dest)).1 = .ok () ∧
      ((emptyFile "cache" "f").getFile slashedRequest newCache).1.toOption.bind Fetched.path? =
        none) ∧
    (emptyFile "link" "f").Serves cachedRequest "f" [] "f" ∧
      loopedCache.disk.find (emptyFile "link" "f").cache.root = .ok (.at ["real"] (.dir 0o755)) ∧
      (∀ e ∈ loopedCache.disk.entries, [Bytes.ofString "real"] <+: e.1 →
        Disk.Entry.isLink e.2 = false) ∧
      ((emptyFile "link" "f").getFile cachedRequest loopedCache).1.toOption.bind Fetched.path? =
        none := by
  refine ⟨⟨serves_emptyFile _ _ _ _, ?_, by decide, by decide, by decide +kernel, by decide,
    by decide, by decide +kernel⟩, ⟨serves_emptyFile _ _ _ _, by decide, rfl,
    by decide +kernel⟩, serves_emptyFile _ _ _ _, rfl, by decide, by decide +kernel⟩
  exact Cache.ready_of_no_links (Disk.isTree_of_entries (by decide))
    (Disk.get?_ne_link_of_entries (by decide)) (by decide) (by decide)

end FileCourier.MasterFiles
