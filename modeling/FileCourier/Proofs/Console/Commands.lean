import FileCourier.Console

/-!
# The commands of the console

White space separates the words of a line (`Command.Words`). The first one names what is asked for, the
others say of what (`Command.Asks`), and each result has its lines (`Request.Shows`).
-/

namespace FileCourier

/-! ## Words -/

namespace Command

/-- The words of a line, which white space separates. -/
inductive Words : Bytes → List Bytes → Prop
  | nil : Words [] []
  | space {c : UInt8} {rest : Bytes} {ws : List Bytes} :
      Bytes.isSpace c = true → Words rest ws → Words (c :: rest) ws
  | last {word : Bytes} : word ≠ [] → (∀ c ∈ word, Bytes.isSpace c = false) → Words word [word]
  | word {word rest : Bytes} {c : UInt8} {ws : List Bytes} :
      word ≠ [] → (∀ c ∈ word, Bytes.isSpace c = false) → Bytes.isSpace c = true → Words rest ws →
        Words (word ++ c :: rest) (word :: ws)

variable {line rest name : Bytes} {ws more : List Bytes} {c : UInt8} {command : Command}

theorem words_append_space (hc : Bytes.isSpace c = true) (line rest : Bytes) :
    words (line ++ c :: rest) = words line ++ words rest := by
  rw [words, List.splitOnP_append_cons line rest hc, List.filter_append]
  rfl

theorem words_of_word (hne : line ≠ []) (h : ∀ c ∈ line, Bytes.isSpace c = false) :
    words line = [line] := by
  rw [words, List.splitOnP_eq_singleton h, List.filter_cons_of_pos (by simpa using hne)]
  rfl

theorem ne_nil_of_mem_words {word : Bytes} (h : word ∈ words line) : word ≠ [] := by
  have hkept := (List.mem_filter.1 h).2
  rintro rfl
  cases hkept

theorem Words.eq (h : Words line ws) : words line = ws := by
  induction h with
  | nil => rfl
  | @space c rest _ hc _ ih => exact (words_append_space hc [] rest).trans ih
  | last hne hword => exact words_of_word hne hword
  | word hne hword hc _ ih =>
    rw [words_append_space hc, words_of_word hne hword, ih, List.singleton_append]

/-- A byte in front of a line begins its first word, or is one by itself. -/
theorem Words.exists_cons (h : Words rest ws) (hc : Bytes.isSpace c = false) :
    ∃ ws', Words (c :: rest) ws' := by
  have hextend {word : Bytes} (hword : ∀ c ∈ word, Bytes.isSpace c = false) :
      ∀ d ∈ c :: word, Bytes.isSpace d = false := List.forall_mem_cons.2 ⟨hc, hword⟩
  cases h with
  | nil => exact ⟨_, .last (List.cons_ne_nil c []) (hextend nofun)⟩
  | space hspace hrest => exact ⟨_, .word (List.cons_ne_nil c []) (hextend nofun) hspace hrest⟩
  | last _ hword => exact ⟨_, .last (List.cons_ne_nil c rest) (hextend hword)⟩
  | @word word _ _ _ _ hword hspace hrest =>
    exact ⟨_, .word (List.cons_ne_nil c word) (hextend hword) hspace hrest⟩

theorem exists_words (line : Bytes) : ∃ ws, Words line ws := by
  induction line with
  | nil => exact ⟨[], .nil⟩
  | cons c rest ih =>
    obtain ⟨ws, hrest⟩ := ih
    cases hc : Bytes.isSpace c with
    | true => exact ⟨ws, .space hc hrest⟩
    | false => exact hrest.exists_cons hc

theorem words_eq_iff : words line = ws ↔ Words line ws := by
  refine ⟨?_, Words.eq⟩
  rintro rfl
  obtain ⟨ws, hws⟩ := exists_words line
  rwa [hws.eq]

theorem ofLine?_eq_none_iff : ofLine? line = none ↔ Words line [] := by
  rw [← words_eq_iff, ofLine?]
  cases words line with
  | nil => exact ⟨fun _ => rfl, fun _ => rfl⟩
  | cons => exact ⟨nofun, nofun⟩

/-! ## What is asked for -/

/-- What the words of a line ask for. Words behind these do not count. -/
inductive Asks : List Bytes → Command → Prop
  | help {more : List Bytes} : Asks ("help" :: more) .help
  | env {name : Bytes} {more : List Bytes} : Asks ("env" :: name :: more) (.env name)
  | files {more : List Bytes} : Asks ("file_list" :: more) (.request .files)
  | directories {more : List Bytes} : Asks ("dir_list" :: more) (.request .directories)
  | emptyDirectories {more : List Bytes} : Asks ("emptydirs" :: more) (.request .emptyDirectories)
  | listCached {more : List Bytes} : Asks ("local_list" :: more) (.request .listCached)
  | listStates {more : List Bytes} : Asks ("list_states" :: more) (.request .listStates)
  | cacheFile {url : Bytes} {more : List Bytes} :
      Asks ("cache_file" :: url :: more) (.request (.cacheFile url))
  | cacheDir {path : Bytes} {more : List Bytes} :
      Asks ("cache_dir" :: path :: more) (.request (.cacheDir path))
  | cacheLocalFile {path : Bytes} {more : List Bytes} :
      Asks ("cache_local_file" :: path :: more) (.request (.cacheLocalFile path))
  | isCached {path : Bytes} {more : List Bytes} :
      Asks ("is_cached" :: path :: more) (.request (.isCached path))
  | digest {path : Bytes} {more : List Bytes} :
      Asks ("hash_file" :: path :: more) (.request (.digest path))
  | getState {state : Bytes} {more : List Bytes} :
      Asks ("get_state" :: state :: more) (.request (.getState state))
  | getUrl {url : Bytes} : Asks ["get_url", url] (.request (.getUrl url []))
  | getUrlTo {url dest : Bytes} {more : List Bytes} :
      Asks ("get_url" :: url :: dest :: more) (.request (.getUrl url dest))
  | getFile {path dest : Bytes} {more : List Bytes} :
      Asks ("get_file" :: path :: dest :: more) (.request (.getFile path dest))
  | getDir {path dest : Bytes} {more : List Bytes} :
      Asks ("get_dir" :: path :: dest :: more) (.request (.getDir path dest))

theorem Asks.ofWords_eq (h : Asks (name :: more) command) (hne : ∀ word ∈ more, word ≠ []) :
    ofWords name (more.headD []) (more.tail.headD []) = command := by
  cases h with
  | help | files | directories | emptyDirectories | listCached | listStates => rfl
  | env | cacheFile | cacheDir | cacheLocalFile | isCached | digest | getState | getUrl | getUrlTo =>
    obtain ⟨_, _, rfl⟩ := List.exists_cons_of_ne_nil (hne _ List.mem_cons_self)
    rfl
  | getFile | getDir =>
    obtain ⟨_, _, rfl⟩ := List.exists_cons_of_ne_nil (hne _ List.mem_cons_self)
    obtain ⟨_, _, rfl⟩ :=
      List.exists_cons_of_ne_nil (hne _ (List.mem_cons_of_mem _ List.mem_cons_self))
    rfl

theorem ofWords_of_not_asks (h : ∀ command, ¬Asks (name :: more) command) :
    ofWords name (more.headD []) (more.tail.headD []) = unknown := by
  have other {s : Bytes} {command : Command} (hs : Asks (s :: more) command) (a b : Command) :
      (if name == s then a else b) = b :=
    if_neg fun hname => h command (by rwa [← eq_of_beq hname] at hs)
  rw [ofWords, other .help, other .files, other .directories, other .emptyDirectories,
    other .listCached, other .listStates]
  cases more with
  | nil => rfl
  | cons first more =>
    by_cases hfirst : first.isEmpty = true
    · exact if_pos hfirst
    rw [List.headD_cons, if_neg hfirst, other .env, other .cacheFile, other .cacheDir, other .cacheLocalFile, other .isCached,
      other .digest, other .getState]
    cases more with
    | nil =>
      rw [other .getUrl]
      rfl
    | cons second more =>
      by_cases hsecond : second.isEmpty = true
      · rw [other .getUrlTo]
        exact if_pos hsecond
      rw [List.tail_cons, List.headD_cons, other .getUrlTo, if_neg hsecond, other .getFile, other .getDir]

theorem asks_iff (hne : ∀ word ∈ more, word ≠ []) : Asks (name :: more) command ↔
    ofWords name (more.headD []) (more.tail.headD []) = command ∧ command ≠ unknown := by
  constructor
  · intro h
    refine ⟨h.ofWords_eq hne, ?_⟩
    rintro rfl
    cases h
  · rintro ⟨rfl, hknown⟩
    by_cases hasks : ∃ command, Asks (name :: more) command
    · obtain ⟨command, h⟩ := hasks
      rwa [h.ofWords_eq hne]
    · exact absurd (ofWords_of_not_asks (not_exists.1 hasks)) hknown

/-- A line is read as what its words ask for, or as unknown if they ask for nothing. -/
theorem ofLine?_eq_some_iff : ofLine? line = some (name, command) ↔ ∃ more, Words line (name :: more) ∧
    (Asks (name :: more) command ∨ command = unknown ∧ ∀ command, ¬Asks (name :: more) command) := by
  constructor
  · intro h
    rw [ofLine?] at h
    split at h
    · cases h
    · rename_i word more hwords
      obtain ⟨rfl, rfl⟩ := Prod.mk.inj (Option.some.inj h)
      have hne : ∀ word ∈ more, word ≠ [] := fun word hmem =>
        ne_nil_of_mem_words (hwords ▸ List.mem_cons_of_mem _ hmem)
      refine ⟨more, words_eq_iff.1 hwords, ?_⟩
      by_cases hknown : ofWords word (more.headD []) (more.tail.headD []) = unknown
      · refine .inr ⟨hknown, fun command hasks => ?_⟩
        obtain ⟨rfl, hknown'⟩ := (asks_iff hne).1 hasks
        exact hknown' hknown
      · exact .inl ((asks_iff hne).2 ⟨rfl, hknown⟩)
  · rintro ⟨more, hwords, h⟩
    have hne : ∀ word ∈ more, word ≠ [] := fun word hmem =>
      ne_nil_of_mem_words (hwords.eq ▸ List.mem_cons_of_mem _ hmem)
    have hcommand : ofWords name (more.headD []) (more.tail.headD []) = command := by
      rcases h with hasks | ⟨rfl, hno⟩
      · exact hasks.ofWords_eq hne
      · exact ofWords_of_not_asks hno
    rw [ofLine?, hwords.eq]
    exact congrArg (fun command => some (name, command)) hcommand

/-- A line switches to an environment: its first word is the command for it and its second one the
environment. -/
def Switches (line env : Bytes) : Prop := ∃ more, Words line ("env" :: env :: more)

theorem exists_ofLine?_eq_env_iff {env : Bytes} :
    (∃ name, ofLine? line = some (name, .env env)) ↔ Switches line env := by
  constructor
  · rintro ⟨name, h⟩
    obtain ⟨more, hwords, hasks | ⟨⟨⟩, -⟩⟩ := ofLine?_eq_some_iff.1 h
    cases hasks
    exact ⟨_, hwords⟩
  · rintro ⟨more, hwords⟩
    exact ⟨"env", ofLine?_eq_some_iff.2 ⟨_, hwords, .inl .env⟩⟩

end Command

/-! ## What is shown -/

namespace Request

variable {here absent : Bytes} {lines : List Bytes}

/-- How a listing is shown. -/
inductive Listed : Listing → List Bytes → Prop
  | reached {l : List Bytes} : Listed (some l) l
  | unreachable : Listed none ["Master unreachable"]

/-- How a path is shown, and what is said when there is none. -/
inductive Placed (absent : Bytes) : Bytes → List Bytes → Prop
  | found {path : Bytes} : path ≠ [] → Placed absent path [path]
  | absent : Placed absent [] [absent]

/-- How the result of each request is shown. -/
inductive Shows (here : Bytes) : (r : Request) → r.Result → List Bytes → Prop
  | files {l : Listing} {lines : List Bytes} : Listed l lines → Shows here .files l lines
  | directories {l : Listing} {lines : List Bytes} : Listed l lines → Shows here .directories l lines
  | emptyDirectories {l : Listing} {lines : List Bytes} :
      Listed l lines → Shows here .emptyDirectories l lines
  | listCached {l : List Bytes} : Shows here .listCached l l
  | listStates {l : List Bytes} : Shows here .listStates l l
  | cacheDir {path : Bytes} {l : List Bytes} : Shows here (.cacheDir path) l l
  | getDir {path dest : Bytes} {l : List Bytes} : Shows here (.getDir path dest) l l
  | cacheFile {url path : Bytes} {lines : List Bytes} :
      Placed ("Could not cache " ++ url) path lines → Shows here (.cacheFile url) path lines
  | cacheLocalFile {path copy : Bytes} {lines : List Bytes} :
      Placed ("Could not cache " ++ path) copy lines → Shows here (.cacheLocalFile path) copy lines
  | isCached {path place : Bytes} {lines : List Bytes} :
      Placed ("Not cached: " ++ path) place lines → Shows here (.isCached path) place lines
  | getUrl {url dest path : Bytes} {lines : List Bytes} :
      Placed ("Could not fetch " ++ url) path lines → Shows here (.getUrl url dest) path lines
  | digest {path : Bytes} {record : DigestRecord} :
      Shows here (.digest path) (some record) [record.algorithm ++ " " ++ record.sum]
  | noDigest {path : Bytes} : Shows here (.digest path) none ["No hash available for " ++ path]
  | state {state : Bytes} {file : StateFile} :
      Shows here (.getState state) (some file) [file.source ++ " -> " ++ file.dest]
  | noState {state : Bytes} :
      Shows here (.getState state) none ["No state " ++ state ++ " in " ++ here]
  | stored {path dest : Bytes} {place : Path} :
      Shows here (.getFile path dest) (.stored place) [place.text]
  | unstored {path dest : Bytes} {result : Fetched} : result.path? = none →
      Shows here (.getFile path dest) result ["Failed to fetch " ++ path ++ ": " ++ result.message]

theorem listed_iff {l : Listing} : Listed l lines ↔ listingLines l = lines := by
  constructor
  · rintro (_ | _) <;> rfl
  · rintro rfl
    cases l with
    | none => exact .unreachable
    | some l => exact .reached

theorem placed_iff {path : Bytes} : Placed absent path lines ↔ placeLines absent path = lines := by
  constructor
  · rintro (hne | _)
    · rw [placeLines, if_neg fun hnil => hne (List.isEmpty_iff.1 hnil)]
    · rfl
  · rintro rfl
    cases path with
    | nil => exact .absent
    | cons c path => exact .found (List.cons_ne_nil c path)

theorem shows_iff {r : Request} {result : r.Result} : Shows here r result lines ↔
    r.lines here result = lines := by
  constructor
  · intro h
    cases h with
    | files h | directories h | emptyDirectories h => exact listed_iff.1 h
    | cacheFile h | cacheLocalFile h | isCached h | getUrl h => exact placed_iff.1 h
    | listCached | listStates | cacheDir | getDir => rfl
    | digest | noDigest | state | noState | stored => rfl
    | @unstored _ _ result h =>
      cases result with
      | stored => cases h
      | notFound | destinationUnavailable | timeout => rfl
  · rintro rfl
    cases r with
    | files => exact .files (listed_iff.2 rfl)
    | directories => exact .directories (listed_iff.2 rfl)
    | emptyDirectories => exact .emptyDirectories (listed_iff.2 rfl)
    | listCached => exact .listCached
    | listStates => exact .listStates
    | cacheDir => exact .cacheDir
    | getDir => exact .getDir
    | cacheFile => exact .cacheFile (placed_iff.2 rfl)
    | cacheLocalFile => exact .cacheLocalFile (placed_iff.2 rfl)
    | isCached => exact .isCached (placed_iff.2 rfl)
    | getUrl => exact .getUrl (placed_iff.2 rfl)
    | digest =>
      cases result with
      | none => exact .noDigest
      | some record => exact .digest
    | getState =>
      cases result with
      | none => exact .noState
      | some file => exact .state
    | getFile =>
      cases result with
      | stored => exact .stored
      | notFound | destinationUnavailable | timeout => exact .unstored rfl

end Request

end FileCourier
