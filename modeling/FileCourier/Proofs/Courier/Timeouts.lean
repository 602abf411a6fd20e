import FileCourier.Proofs.Courier.Absorbing
import FileCourier.Proofs.Courier.Gathering
import FileCourier.Proofs.MasterLink

/-!
# What comes of requests that time out

An errand of one request is an inquiry (`Errand.inquiry?`): it brings nothing exactly when its request
timed out (`MasterFiles.perform_inquiry`). Any other errand goes on without what it did not get, so
whatever the courier is asked to do, one errand after the other, nothing fails because the master was out
of reach, and what was within reach is there (`MasterFiles.timeouts_absorbed`).
-/

namespace FileCourier

open Disk (Creates)
open LocalRoots (listed)

variable {σ : Type} {m : MasterFiles σ} {web : Web σ} {engines : Engines} {e : Errand} {t : FileTree}

/-! ## Errands of one request -/

/-- What is asked in one request, and what the reply brings, if there is one. -/
structure Inquiry where
  request : Message
  bring : Option Message → Errand.Outcome

namespace Inquiry

def listing (name env : Bytes) : Inquiry where
  request := MasterFiles.listingRequest name env
  bring reply := .listing (reply.map fun reply => reply.list "return")

/-- The digest that a reply tells, if it tells one. -/
def told (s : Settings) (reply : Message) : Option DigestRecord :=
  match reply.bytesOr "hsum" [] with
  | [] => none
  | sum => some ⟨reply.bytesOr "hash_type" s.hashType, sum⟩

def digest (s : Settings) (relative env : Bytes) : Inquiry where
  request := .ofList [("path", .bytes relative), ("env", .bytes env), ("cmd", .bytes "_file_hash")]
  bring reply := .digest (reply.bind (told s))

def options : Inquiry where
  request := .ofList [("cmd", .bytes "_master_opts")]
  bring := .options

def classes (s : Settings) : Inquiry where
  request := MasterFiles.classesRequest s
  bring reply := .classes (reply.map fun reply => reply.map "return")

end Inquiry

/-- The errands of one request. -/
def Errand.inquiry? (s : Settings) : Errand → Option Inquiry
  | .files env | .environment env => some (.listing "_file_list" env)
  | .directories env => some (.listing "_dir_list" env)
  | .emptyDirectories env => some (.listing "_file_list_emptydirs" env)
  | .digest path env => (VirtualPath.strip? path).map fun relative => .digest s relative env
  | .options => some .options
  | .classes => some (.classes s)
  | _ => none

/-- There is nothing, which is not the same as something empty. -/
def Errand.Outcome.IsNothing : Errand.Outcome → Prop
  | .listing none | .digest none | .options none | .classes none => True
  | _ => False

/-- Without a reply an inquiry brings nothing. -/
theorem Errand.isNothing_bring {s : Settings} {q : Inquiry} (h : e.inquiry? s = some q) :
    (q.bring none).IsNothing := by
  cases e with
  | digest path env =>
    obtain ⟨relative, -, rfl⟩ := Option.map_eq_some_iff.1 h
    trivial
  | files | directories | emptyDirectories | environment | options | classes =>
    cases h
    trivial
  | _ => cases h

/-- The errand is to get a listing. -/
def Errand.IsListing : Errand → Prop
  | .files _ | .directories _ | .emptyDirectories _ | .environment _ => True
  | _ => False

namespace MasterFiles

theorem perform_eq_inquiry {q : Inquiry} (h : e.inquiry? m.settings = some q) :
    (m.courier web engines).perform e = m.command q.request >>= fun reply => pure (q.bring reply) := by
  have asked {α : Type} (request : Message) (f : Option Message → α) (g : α → Errand.Outcome) :
      ((m.command request >>= fun reply => pure (f reply)) >>= fun a => pure (g a)) =
        m.command request >>= fun reply => pure (g (f reply)) := by
    simp only [bind_assoc, pure_bind]
  cases e with
  | files env | directories env | emptyDirectories env | environment env =>
    cases h
    exact asked _ _ _
  | digest path env =>
    obtain ⟨relative, hstrip, rfl⟩ := Option.map_eq_some_iff.1 h
    have hdigest : m.digest path env = m.command (Inquiry.digest m.settings relative env).request >>=
        fun reply => pure (reply.bind (Inquiry.told m.settings)) := by
      rw [digest, hstrip]
      rfl
    refine (congrArg (· >>= fun record => pure (Errand.Outcome.digest record)) hdigest).trans ?_
    exact asked _ _ _
  | options =>
    cases h
    rfl
  | classes =>
    cases h
    exact asked _ _ _
  | _ => cases h

/-- An errand of one request brings what the answer to that comes to. -/
theorem perform_inquiry (m : MasterFiles σ) (web : Web σ) (engines : Engines) {q : Inquiry}
    (h : e.inquiry? m.settings = some q) (w : World σ) :
    ∃ x, m.exchangesOf web engines e w = [x] ∧ x.request = q.request ∧
      ((m.courier web engines).perform e w).1 = x.outcome.map q.bring := by
  obtain ⟨x, beyond, hrequest, -, hcommand⟩ := command_recorded m q.request ⟨w.disk, w.beyond, []⟩
  have hperform : (m.recorded.courier web.beside engines).perform e ⟨w.disk, w.beyond, []⟩ =
      (x.outcome.map q.bring, ⟨w.disk, beyond, [x]⟩) := by
    rw [perform_eq_inquiry (m := m.recorded) h]
    cases houtcome : x.outcome with
    | ok reply => exact Action.bind_ok (hcommand.trans (by rw [houtcome]; rfl))
    | error fault => exact Action.bind_error (hcommand.trans (by rw [houtcome]; rfl))
  obtain ⟨hrun, hexchanged⟩ := perform_of_recorded hperform
  exact ⟨x, hexchanged, hrequest, congrArg Prod.fst hrun⟩

/-- A listing is missing exactly when its request timed out. -/
theorem perform_listing_iff (m : MasterFiles σ) (web : Web σ) (engines : Engines) (h : e.IsListing)
    (w : World σ) : ((m.courier web engines).perform e w).1 = .ok (.listing none) ↔
      ∃ x ∈ m.exchangesOf web engines e w, x.TimedOut := by
  obtain ⟨name, env, hq⟩ : ∃ name env, e.inquiry? m.settings = some (.listing name env) := by
    cases e with
    | files env | directories env | emptyDirectories env | environment env => exact ⟨_, env, rfl⟩
    | _ => cases h
  obtain ⟨x, hexchanged, -, hresult⟩ := perform_inquiry m web engines hq w
  rw [hexchanged, hresult]
  simp only [List.mem_singleton, exists_eq_left, ← Exchange.outcome_eq_none_iff]
  cases x.outcome with
  | error fault => exact ⟨nofun, nofun⟩
  | ok reply =>
    cases reply with
    | none => exact ⟨fun _ => rfl, fun _ => rfl⟩
    | some reply => exact ⟨nofun, nofun⟩

/-- A file has timed out exactly when one of its requests did. -/
theorem perform_getFile_iff (m : MasterFiles σ) (web : Web σ) (engines : Engines) (r : FileRequest)
    (w : World σ) : ((m.courier web engines).perform (.getFile r) w).1 = .ok (.fetched .timeout) ↔
      ∃ x ∈ m.exchangesOf web engines (.getFile r) w, x.TimedOut := by
  have hexchanged : m.exchangesOf web engines (.getFile r) w = m.exchanges r w :=
    congrArg (fun w' : World (σ × List Exchange) => w'.beyond.2)
      (Action.snd_bind_pure (m.recorded.getFile r) Errand.Outcome.fetched ⟨w.disk, w.beyond, []⟩)
  rw [hexchanged, ← getFile_timeout_iff]
  cases hget : m.getFile r w with
  | mk result w' =>
    cases result with
    | error fault =>
      have hperform : (m.courier web engines).perform (.getFile r) w = (.error fault, w') :=
        Action.bind_error hget
      rw [hperform]
      exact ⟨nofun, nofun⟩
    | ok fetched =>
      have hperform : (m.courier web engines).perform (.getFile r) w = (.ok (.fetched fetched), w') :=
        Action.bind_ok hget
      rw [hperform]
      constructor
      · rintro ⟨⟩
        rfl
      · rintro ⟨⟩
        rfl

/-! ## All errands -/

/-- Whatever is asked of a courier, one errand after the other: no result says that the master was out of
reach. -/
theorem exists_outcomes {c : Courier σ} (h : ∀ e, (c.perform e).Absorbs) (errands : List Errand)
    (w : World σ) : ∃ results w',
      errands.mapM (fun e => Action.outcome (c.perform e)) w = (.ok results, w') ∧
      results.length = errands.length ∧
      ∀ result ∈ results, ∀ what last, result ≠ .error (.unreachable what last) := by
  obtain ⟨done, w', rfl, hrun, habsorbs⟩ := Action.exists_mapM (l := errands)
    (f := fun e => Action.outcome (c.perform e)) (s := w)
    (I := fun done _ => ∀ x ∈ done, ∀ what last, x.2 ≠ .error (.unreachable what last))
    (fun {before e after w} _ hbefore => by
      refine ⟨(c.perform e w).1, (c.perform e w).2, rfl, fun x hx => ?_⟩
      rcases List.mem_append.1 hx with hx | hx
      · exact hbefore x hx
      · obtain rfl := List.mem_singleton.1 hx
        exact h e w)
    (List.forall_mem_nil _)
  refine ⟨_, w', hrun, by rw [List.length_map, List.length_map], fun result hresult => ?_⟩
  obtain ⟨x, hx, rfl⟩ := List.mem_map.1 hresult
  exact habsorbs x hx

/-- Of a tree that is offered whenever the master is reached, what was within reach is there: copies and
the cache hold exactly the files whose own requests were all answered. -/
structure BringsReached (m : MasterFiles σ) (web : Web σ) (engines : Engines) (env : Bytes)
    (t : FileTree) (w : World σ) : Prop where
  getDir : ∀ path dest gzip root above seg D d₁, CopyRoot.of? path = some root → root.Names above seg →
    w.disk.Grounded → Creates w.disk ⟨dest⟩ D d₁ → (t.below above seg).Fits ⟨dest⟩ →
    ((m.courier web engines).perform (.getDir path dest env gzip) w).1 =
      .ok (.places (Bytes.sort (((t.below above seg).reached above
        (m.exchangesOf web engines (.getDir path dest env gzip) w)).leaves.map fun ns =>
          ((Path.mk dest).along ns).text)))
  getDir_unnamed : ∀ path dest gzip root, CopyRoot.of? path = some root →
    (∀ above seg, ¬root.Names above seg) →
    ((m.courier web engines).perform (.getDir path dest env gzip) w).1 = .ok (.places [])
  cacheDir : ∀ path includeEmpty root above seg d₁, CopyRoot.of? path = some root →
    root.Names above seg → m.cache.Opens w.disk d₁ →
    (∀ ns ∈ (t.below above seg).leaves, m.cache.Accepts env (above ++ ns)) →
    ((m.courier web engines).perform (.cacheDir path env includeEmpty) w).1 =
      .ok (.places (m.cache.placesOf env above ((t.below above seg).reached above
        (m.exchangesOf web engines (.cacheDir path env includeEmpty) w)) includeEmpty))
  cacheDir_unnamed : ∀ path includeEmpty root, CopyRoot.of? path = some root →
    (∀ above seg, ¬root.Names above seg) →
    ((m.courier web engines).perform (.cacheDir path env includeEmpty) w).1 = .ok (.places [])
  cacheMaster : ∀ d₁, m.cache.Opens w.disk d₁ → (∀ f ∈ t.files, m.cache.Accepts env f.1) →
    ((m.courier web engines).perform (.cacheMaster env) w).1 =
      .ok (.places (m.cache.placesByRecord env t (m.exchangesOf web engines (.cacheMaster env) w))) ∧
    ∀ f ∈ t.files, (m.cache.filePath env (listed f.1)).text ≠ []

theorem bringsReached (web : Web σ) (engines : Engines) {env : Bytes} (ht : t.Consistent)
    (hoffers : m.OffersWhenReached env t) (w : World σ) : m.BringsReached web engines env t w where
  getDir _ _ gzip _ _ _ _ _ hroot hnames hd hcreates hfits :=
    getDir_reached web engines gzip hroot hnames hd hcreates ht hoffers hfits
  getDir_unnamed _ dest gzip _ hroot hunlisted :=
    MasterFiles.getDir_unnamed web engines dest gzip hroot hunlisted ht hoffers w
  cacheDir _ includeEmpty _ _ _ _ hroot hnames hopens hfits :=
    cacheDir_reached web engines hroot hnames hopens ht hoffers hfits includeEmpty
  cacheDir_unnamed _ includeEmpty _ hroot hunlisted :=
    MasterFiles.cacheDir_unnamed web engines hroot hunlisted ht hoffers includeEmpty w
  cacheMaster _ hopens hfits :=
    ⟨cacheMaster_reached web engines hopens ht hoffers hfits, fun f hf => (hfits f hf).place_ne_nil⟩

/-- Whatever requests time out, no errand of a courier fails because of it, in whatever order the errands
come. An errand of one request brings nothing when that timed out and what the reply says when one came;
for a listing there is nothing exactly then. A file has timed out exactly when one of its requests did.
Of a tree that is offered whenever the master is reached, copies and the cache get exactly what was within
reach. A request over a link is one parcel, and times out exactly when the channel does. -/
theorem timeouts_absorbed (m : MasterFiles σ) (web : Web σ) (engines : Engines)
    (hweb : ∀ request, (web request).Absorbs) (hengines : engines.Absorb) :
    (∀ (errands : List Errand) (w : World σ), ∃ results w',
      errands.mapM (fun e => Action.outcome ((m.courier web engines).perform e)) w =
        (.ok results, w') ∧
      results.length = errands.length ∧
      ∀ result ∈ results, ∀ what last, result ≠ .error (.unreachable what last)) ∧
    (∀ e q w, e.inquiry? m.settings = some q → (q.bring none).IsNothing ∧
      ∃ x, m.exchangesOf web engines e w = [x] ∧ x.request = q.request ∧
        (x.TimedOut → ((m.courier web engines).perform e w).1 = .ok (q.bring none)) ∧
        ∀ reply, x.answer = .ok reply →
          ((m.courier web engines).perform e w).1 = .ok (q.bring (some reply))) ∧
    (∀ e w, e.IsListing → (((m.courier web engines).perform e w).1 = .ok (.listing none) ↔
      ∃ x ∈ m.exchangesOf web engines e w, x.TimedOut)) ∧
    (∀ r w, ((m.courier web engines).perform (.getFile r) w).1 = .ok (.fetched .timeout) ↔
      ∃ x ∈ m.exchangesOf web engines (.getFile r) w, x.TimedOut) ∧
    (∀ env t w, t.Consistent → m.OffersWhenReached env t → m.BringsReached web engines env t w) ∧
    ∀ (link : MasterLink σ) request s iv s', m.ask = link.ask → link.fresh s = (.ok iv, s') →
      link.sent request s = [link.parcel request iv] ∧
      ((∃ what last, (m.ask request s).1 = .error (.unreachable what last)) ↔
        ∃ what last, (link.channel (link.parcel request iv) s').1 = .error (.unreachable what last)) := by
  refine ⟨exists_outcomes (m.perform_absorbs engines hweb hengines), ?inquiry,
    fun e w h => perform_listing_iff m web engines h w, perform_getFile_iff m web engines,
    fun env t w ht hoffers => bringsReached web engines ht hoffers w, ?link⟩
  case inquiry =>
    intro e q w h
    obtain ⟨x, hexchanged, hrequest, hresult⟩ := perform_inquiry m web engines h w
    refine ⟨Errand.isNothing_bring h, x, hexchanged, hrequest, fun hcut => ?_, fun reply hreply => ?_⟩
    · rw [hresult, x.outcome_eq_none_iff.2 hcut]
      rfl
    · rw [hresult, Exchange.outcome_of_ok hreply]
      rfl
  case link =>
    intro link request s iv s' hlink hfresh
    refine ⟨MasterLink.sent_of_fresh hfresh, ?_⟩
    rw [hlink, MasterLink.ask_of_fresh hfresh rfl]
    exact MasterLink.verdict_unreachable_iff

/-- The master, out of reach for the requests that are lost, which are numbered from the first on. -/
def losing (m : MasterFiles σ) (lost : Nat → Bool) : MasterFiles (σ × Nat) where
  settings := m.settings
  digests := m.digests
  ask := fun request s =>
    if lost s.2 then (.error (.unreachable [] .timeout), s.1, s.2 + 1)
    else
      match m.ask request s.1 with
      | (answer, beyond) => (answer, beyond, s.2 + 1)
  patience := m.patience

theorem replies_losing {request : Message} {p : Message → Prop} (lost : Nat → Bool)
    (h : ∀ s, ∃ reply, (m.ask request s).1 = .ok reply ∧ p reply) :
    (m.losing lost).Replies request p := by
  intro s
  cases hlost : lost s.2 with
  | true =>
    refine .inl ⟨[], .timeout, ?_⟩
    rw [losing]
    dsimp only
    rw [hlost, if_pos rfl]
  | false =>
    obtain ⟨reply, hreply, hp⟩ := h s.1
    refine .inr ⟨reply, ?_, hp⟩
    rw [losing]
    dsimp only
    rw [hlost, if_neg Bool.false_ne_true]
    exact hreply

theorem offersWhenReached_losing {env : Bytes} (lost : Nat → Bool) (h : m.Offers env t) :
    (m.losing lost).OffersWhenReached env t where
  files := replies_losing lost h.files
  emptyDirectories := replies_losing lost h.emptyDirectories
  serves f hf r hr n hn := replies_losing lost fun s => h.serves f hf r hr n s hn
  patience := h.patience

/-- A master of a tree that is out of reach for the second request. -/
def losingSecond : MasterFiles (Unit × Nat) := (ofTree siblings 10).losing (· == 1)

theorem timeouts_absorbed_losingSecond :
    ((losingSecond.courier noWeb .empty).perform (.files "base") ⟨beforeCopy.disk, (), 1⟩).1 =
      .ok (.listing none) ∧
    ((losingSecond.courier noWeb .empty).perform (.getDir "salt://a/d//" "srv/new/out" "base" 0)
      ⟨beforeCopy.disk, (), 0⟩).1 = .ok (.places ["srv/new/out/d/b/g", "srv/new/out/d/e"]) ∧
    ((losingSecond.courier noWeb .empty).perform (.cacheMaster "base") ⟨newCache.disk, (), 0⟩).1 =
      .ok (.places [[], "cache/files/base/a/d/b/g", "cache/files/base/a/dd/f", "cache/files/base/d"]) := by
  have hnoWeb : ∀ request, (noWeb request : Action (Unit × Nat) Transfer).Absorbs :=
    fun _ => Action.absorbs_throw nofun
  have hempty : Engines.Absorb .empty := by
    intro name engine h
    cases h
  obtain ⟨-, -, hlisting, -, htrees, -⟩ := timeouts_absorbed losingSecond noWeb .empty hnoWeb hempty
  have hoffers : losingSecond.OffersWhenReached "base" siblings := offersWhenReached_losing _
    (offers_ofTree consistent_siblings (by decide) (by decide) "base")
  refine ⟨(hlisting (.files "base") _ trivial).2 (by decide +kernel), ?copy, ?cache⟩
  case copy =>
    have hcopy := (htrees "base" siblings ⟨beforeCopy.disk, (), 0⟩ consistent_siblings hoffers).getDir
      "salt://a/d//" "srv/new/out" 0 _ ["a"] "d" copyPlace _ rfl ⟨by decide, by decide⟩
      ⟨Disk.isTree_of_entries (by decide), ⟨_, rfl⟩⟩ creates_beforeCopy
      ⟨by decide, by decide, by decide, by decide⟩
    have hreached : ((siblings.below ["a"] "d").reached ["a"] (losingSecond.exchangesOf noWeb .empty
        (.getDir "salt://a/d//" "srv/new/out" "base" 0) ⟨beforeCopy.disk, (), 0⟩)).leaves =
          ([["d", "b", "g"], ["d", "e"]] : List (List Bytes)) := by
      decide +kernel
    rw [hreached] at hcopy
    refine hcopy.trans (congrArg (fun places => Except.ok (Errand.Outcome.places places)) ?_)
    exact List.mergeSort_of_pairwise (by decide)
  case cache =>
    have hready : losingSecond.cache.Ready newCache.disk :=
      Cache.ready_of_no_links (Disk.isTree_of_entries (by decide))
        (Disk.get?_ne_link_of_entries (by decide)) (by decide) (by decide)
    have hordinary : ∀ f ∈ siblings.files, ∀ n ∈ f.1, Path.Ordinary n := by decide
    have hshort : ∀ f ∈ siblings.files,
        (losingSecond.cache.filePath "base" (listed f.1)).text.length ≤ Disk.maxPath := by decide
    obtain ⟨hcache, -⟩ := (htrees "base" siblings ⟨newCache.disk, (), 0⟩ consistent_siblings
      hoffers).cacheMaster _ (hready.opens (by decide)) fun f hf =>
        ⟨by decide, consistent_siblings.ne_nil f hf, hordinary f hf, hshort f hf⟩
    refine hcache.trans (congrArg (fun places => Except.ok (Errand.Outcome.places places)) ?_)
    decide +kernel

/-- A file whose name is too long makes the errand fail for all of them. -/
theorem cacheMaster_of_longName :
    (only [List.replicate 256 97]).Consistent ∧
    (ofTree (only [List.replicate 256 97]) 10).Offers "base" (only [List.replicate 256 97]) ∧
    (ofTree (only [List.replicate 256 97]) 10).cache.Ready newCache.disk ∧
    (((ofTree (only [List.replicate 256 97]) 10).courier noWeb .empty).perform (.cacheMaster "base")
      newCache).1.toOption.isNone = true := by
  have hlong : (only [List.replicate 256 97]).Consistent :=
    ⟨by decide, by decide +kernel, by decide⟩
  refine ⟨hlong, offers_only hlong, ?_, by decide +kernel⟩
  exact Cache.ready_of_no_links (Disk.isTree_of_entries (by decide))
    (Disk.get?_ne_link_of_entries (by decide)) (by decide) (by decide)

end MasterFiles

end FileCourier
