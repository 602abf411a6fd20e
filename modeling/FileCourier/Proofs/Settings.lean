import FileCourier.Proofs.Yaml
import FileCourier.Settings

/-!
# The settings that a document gives

Settings are read exactly from an empty document, or from a mapping whose options are of their kinds and
whose numbers are in range (`Given`, `read_eq_ok_iff`). Then the port is the number that is written and
fits into sixteen bits, there is at least one try and one second, the client has a name, and each
environment has the directories that are listed for it, in their order (`Sound`). Nothing depends on the
order of the options (`parse_and_load_settle`).
-/

namespace FileCourier.Settings

/-! ## Options -/

/-- What a document says of an option: the value at its key, or the default when there is none or null. -/
inductive Gives {α : Type} (reads : Yaml → α → Prop) (doc : Yaml) (key : Bytes) (default : α) : α → Prop
  | absent : doc.get? key = none → Gives reads doc key default default
  | null : doc.get? key = some .null → Gives reads doc key default default
  | value {node : Yaml} {a : α} : doc.get? key = some node → node ≠ .null → reads node a →
      Gives reads doc key default a

section Reading

variable (l : Yaml.Library)

/-- The directories that are listed for an environment. -/
inductive Roots : Yaml → List Bytes → Prop
  | list {items : List Yaml} {roots : List Bytes} : List.Forall₂ l.IsText items roots →
      Roots (.list items) roots
  | one (root : Bytes) : Roots (.scalar root) [root]
  | null : Roots .null []
  | map (entries : List (Yaml × Yaml)) : Roots (.map entries) []

/-- An environment and its directories, as an entry lists them. -/
def Assigns (e : Yaml × Yaml) (pair : Bytes × List Bytes) : Prop :=
  l.IsText e.1 pair.1 ∧ Roots l e.2 pair.2

/-- The directories of all environments of a mapping. -/
def AllRoots (node : Yaml) (roots : ByteMap (List Bytes)) : Prop :=
  ∃ entries pairs, node = .map entries ∧ List.Forall₂ (Assigns l) entries pairs ∧ roots = .ofList pairs

/-- What a document says of every option. -/
structure Described (doc : Yaml) (s : Settings) : Prop where
  cachedir : Gives l.IsText doc "cachedir" defaults.cachedir s.cachedir
  fileClient : Gives l.IsText doc "file_client" defaults.fileClient s.fileClient
  fileRoots : Gives (AllRoots l) doc "file_roots" defaults.fileRoots s.fileRoots
  hashType : Gives l.IsText doc "hash_type" defaults.hashType s.hashType
  externalNodes : Gives l.IsText doc "external_nodes" defaults.externalNodes s.externalNodes
  id : Gives l.IsText doc "id" defaults.id s.id
  master : Gives l.IsText doc "master" defaults.master s.master
  masterPort : Gives l.IsInt doc "master_port" defaults.masterPort s.masterPort
  keyFile : Gives l.IsText doc "key_file" defaults.keyFile s.keyFile
  requestTries : Gives l.IsInt doc "request_tries" defaults.requestTries s.requestTries
  requestTimeout : Gives l.IsInt doc "request_timeout" defaults.requestTimeout s.requestTimeout
  logFile : Gives l.IsText doc "log_file" defaults.logFile s.logFile
  logLevel : Gives l.IsText doc "log_level" defaults.logLevel s.logLevel

/-- Numbers that make sense. -/
structure InRange (s : Settings) : Prop where
  port_pos : 1 ≤ s.masterPort
  port_le : s.masterPort ≤ 65535
  tries : 1 ≤ s.requestTries
  timeout : 1 ≤ s.requestTimeout

/-- The settings that a document gives on a host. -/
def Given (host : Bytes) (doc : Yaml) (s : Settings) : Prop :=
  (doc = .null ∨ ∃ entries, doc = .map entries) ∧
    ∃ raw, Described l doc raw ∧ InRange raw ∧ s = named host raw

end Reading

variable {α : Type} {l : Yaml.Library} {doc doc' node : Yaml} {key : Bytes} {s : Settings}
  {blame : YamlError → SettingsError}

theorem option_eq_ok_iff {read : Yaml → Except YamlError α} {reads : Yaml → α → Prop} {default a : α}
    (hread : ∀ node a, read node = .ok a ↔ reads node a) :
    option doc key read default = .ok a ↔ Gives reads doc key default a := by
  constructor
  · intro h
    rw [option] at h
    split at h
    · rename_i hget
      cases h
      exact .absent hget
    · rename_i hget
      cases h
      exact .null hget
    · rename_i node hnull hget
      exact .value hget hnull ((hread node a).1 h)
  · intro h
    cases h with
    | absent hget => rw [option, hget]
    | null hget => rw [option, hget]
    | @value node _ hget hnull hreads =>
      rw [option, hget]
      cases node with
      | null => exact absurd rfl hnull
      | scalar _ | list _ | map _ => exact (hread _ a).2 hreads

/-- A value that stands at the key is the one that is read. -/
theorem Gives.reads_of_get? {reads : Yaml → α → Prop} {default a : α}
    (h : Gives reads doc key default a) (hget : doc.get? key = some node) (hnull : node ≠ .null) :
    reads node a := by
  cases h with
  | absent hnone => cases hget.symm.trans hnone
  | null hnone =>
    cases hget.symm.trans hnone
    exact absurd rfl hnull
  | value hvalue _ hreads =>
    cases hget.symm.trans hvalue
    exact hreads

theorem readRoots_eq_ok_iff {roots : List Bytes} :
    readRoots l node = .ok roots ↔ Roots l node roots := by
  constructor
  · intro h
    cases node with
    | null => cases h; exact .null
    | scalar text => cases h; exact .one text
    | list items => exact .list (Yaml.Library.mapM_asText_eq_ok_iff.1 h)
    | map entries => cases h; exact .map entries
  · intro h
    cases h with
    | list hitems => exact Yaml.Library.mapM_asText_eq_ok_iff.2 hitems
    | one | null | map => rfl

theorem readAllRoots_eq_ok_iff {entries : List (Yaml × Yaml)} {roots : ByteMap (List Bytes)} :
    readAllRoots l entries = .ok roots ↔
      ∃ pairs, List.Forall₂ (Assigns l) entries pairs ∧ roots = .ofList pairs := by
  have hentry (e : Yaml × Yaml) (pair : Bytes × List Bytes) :
      (do return (← l.asText e.1, ← readRoots l e.2) : Except YamlError (Bytes × List Bytes)) = .ok pair ↔
        Assigns l e pair := by
    rw [Except.bind_eq_ok_iff]
    constructor
    · rintro ⟨env, henv, h⟩
      obtain ⟨roots, hroots, h⟩ := Except.bind_eq_ok_iff.1 h
      cases h
      exact ⟨Yaml.Library.asText_eq_ok_iff.1 henv, readRoots_eq_ok_iff.1 hroots⟩
    · rintro ⟨henv, hroots⟩
      exact ⟨pair.1, Yaml.Library.asText_eq_ok_iff.2 henv,
        Except.bind_eq_ok_iff.2 ⟨pair.2, readRoots_eq_ok_iff.2 hroots, rfl⟩⟩
  rw [readAllRoots, Except.bind_eq_ok_iff]
  simp only [Except.mapM_eq_ok_iff, hentry]
  exact exists_congr fun pairs => and_congr_right fun _ => ⟨fun h => by cases h; rfl, fun h => by rw [h]; rfl⟩

theorem fileRootsOption_eq_ok_iff {roots : ByteMap (List Bytes)} :
    fileRootsOption l blame doc = .ok roots ↔
      Gives (AllRoots l) doc "file_roots" defaults.fileRoots roots := by
  constructor
  · intro h
    rw [fileRootsOption] at h
    split at h
    · rename_i hget
      cases h
      exact .absent hget
    · rename_i hget
      cases h
      exact .null hget
    · rename_i entries hget
      obtain ⟨pairs, hpairs, heq⟩ := readAllRoots_eq_ok_iff.1 (Except.mapError_eq_ok_iff.1 h)
      exact .value hget nofun ⟨entries, pairs, rfl, hpairs, heq⟩
    · cases h
  · intro h
    cases h with
    | absent hget => rw [fileRootsOption, hget]
    | null hget => rw [fileRootsOption, hget]
    | value hget _ hroots =>
      obtain ⟨entries, pairs, rfl, hpairs, heq⟩ := hroots
      rw [fileRootsOption, hget]
      exact Except.mapError_eq_ok_iff.2 (readAllRoots_eq_ok_iff.2 ⟨pairs, hpairs, heq⟩)

/-! ## Documents -/

theorem ofMapping_eq_ok_iff : ofMapping l blame doc = .ok s ↔ Described l doc s := by
  simp only [ofMapping, Except.bind_eq_ok_iff, Except.mapError_eq_ok_iff, fileRootsOption_eq_ok_iff,
    option_eq_ok_iff fun _ _ => Yaml.Library.asText_eq_ok_iff,
    option_eq_ok_iff fun _ _ => Yaml.Library.asInt_eq_ok_iff]
  constructor
  · rintro ⟨_, cachedir, _, fileClient, _, hashType, _, externalNodes, _, id, _, master, _, masterPort,
      _, keyFile, _, requestTries, _, requestTimeout, _, logFile, _, logLevel, _, fileRoots, h⟩
    cases h
    exact { cachedir, fileClient, fileRoots, hashType, externalNodes, id, master, masterPort, keyFile,
            requestTries, requestTimeout, logFile, logLevel }
  · intro h
    exact ⟨_, h.cachedir, _, h.fileClient, _, h.hashType, _, h.externalNodes, _, h.id, _, h.master, _,
      h.masterPort, _, h.keyFile, _, h.requestTries, _, h.requestTimeout, _, h.logFile, _, h.logLevel,
      _, h.fileRoots, rfl⟩

theorem check_eq_ok_iff {raw : Settings} : check raw = .ok s ↔ InRange raw ∧ raw = s := by
  rw [check]
  constructor
  · intro h
    split at h
    · cases h
    · rename_i hport
      split at h
      · cases h
      · rename_i hpositive
        cases h
        exact ⟨⟨by omega, by omega, by omega, by omega⟩, rfl⟩
  · rintro ⟨⟨hpos, hle, htries, htimeout⟩, rfl⟩
    rw [if_neg (by omega), if_neg (by omega)]

/-- Nothing is said by an empty document. -/
theorem described_null_iff : Described l .null s ↔ s = defaults := by
  have hgives {α : Type} {reads : Yaml → α → Prop} {key : Bytes} {default a : α} :
      Gives reads .null key default a ↔ a = default := by
    constructor
    · intro h
      cases h with
      | absent => rfl
      | null hget => cases hget
      | value hget => cases hget
    · rintro rfl
      exact .absent rfl
  constructor
  · intro h
    cases s
    exact (Settings.mk.injEq ..).mpr ⟨hgives.1 h.cachedir, hgives.1 h.fileClient, hgives.1 h.fileRoots,
      hgives.1 h.hashType, hgives.1 h.externalNodes, hgives.1 h.id, hgives.1 h.master,
      hgives.1 h.masterPort, hgives.1 h.keyFile, hgives.1 h.requestTries, hgives.1 h.requestTimeout,
      hgives.1 h.logFile, hgives.1 h.logLevel⟩
  · rintro rfl
    constructor <;> exact hgives.2 rfl

theorem ofDocument_eq_ok_iff {host : Bytes} :
    ofDocument l blame host doc = .ok s ↔ Given l host doc s := by
  cases doc with
  | null =>
    constructor
    · intro h
      cases h
      exact ⟨.inl rfl, defaults, described_null_iff.2 rfl, by constructor <;> decide, rfl⟩
    · rintro ⟨-, raw, hraw, -, rfl⟩
      rw [described_null_iff.1 hraw]
      rfl
  | map entries =>
    constructor
    · intro h
      obtain ⟨raw, hraw, rfl⟩ := Except.map_eq_ok_iff.1 h
      obtain ⟨raw, hmapping, hcheck⟩ := Except.bind_eq_ok_iff.1 hraw
      obtain ⟨hrange, rfl⟩ := check_eq_ok_iff.1 hcheck
      exact ⟨.inr ⟨entries, rfl⟩, raw, ofMapping_eq_ok_iff.1 hmapping, hrange, rfl⟩
    · rintro ⟨-, raw, hraw, hrange, rfl⟩
      exact Except.map_eq_ok_iff.2 ⟨raw, Except.bind_eq_ok_iff.2
        ⟨raw, ofMapping_eq_ok_iff.2 hraw, check_eq_ok_iff.2 ⟨hrange, rfl⟩⟩, rfl⟩
  | scalar _ | list _ =>
    constructor
    · nofun
    · rintro ⟨h | ⟨_, h⟩, -⟩ <;> cases h

theorem read_eq_ok_iff {host text : Bytes} :
    read l blame host text = .ok s ↔ ∃ doc, l.parse text = .ok doc ∧ Given l host doc s := by
  rw [read]
  cases l.parse text with
  | error e => exact ⟨nofun, fun ⟨_, h, _⟩ => nomatch h⟩
  | ok doc =>
    rw [ofDocument_eq_ok_iff]
    exact ⟨fun h => ⟨doc, rfl, h⟩, fun ⟨_, hdoc, h⟩ => by cases hdoc; exact h⟩

/-- Only what stands at each key counts. -/
theorem ofMapping_congr (h : ∀ key, doc'.get? key = doc.get? key) :
    ofMapping l blame doc' = ofMapping l blame doc := by
  simp only [ofMapping, option, fileRootsOption, h]

theorem ofDocument_of_perm {entries entries' : List (Yaml × Yaml)} {host : Bytes}
    (h : (entries.map fun e => l.asKey e.1).Nodup) (hperm : entries.Perm entries') :
    ofDocument l blame host (.map entries') = ofDocument l blame host (.map entries) := by
  rw [ofDocument, ofDocument, ofMapping_congr (Yaml.get?_of_perm h hperm)]

/-! ## What holds of all settings -/

/-- What can be relied on in the settings of a document. -/
structure Sound (l : Yaml.Library) (doc : Yaml) (s : Settings) : Prop where
  port_pos : 1 ≤ s.masterPort
  port_le : s.masterPort ≤ 65535
  /-- The port is the number that is read, or the default where none is written. -/
  port_read : Gives l.IsInt doc "master_port" 4506 s.masterPort
  /-- A number that is written in decimal digits is the port. -/
  port_written : ∀ n, doc.get? "master_port" = some (.scalar (Bytes.ofInt n)) → s.masterPort = n
  /-- No bit of it is lost when a connection is made. -/
  port_whole : ((UInt16.ofInt s.masterPort).toNat : Int) = s.masterPort
  tries : 1 ≤ s.requestTries
  timeout : 1 ≤ s.requestTimeout
  named : s.id ≠ []
  /-- Each environment that is listed has the directories listed for it, and there are no others. -/
  roots : ∀ entries, doc.get? "file_roots" = some (.map entries) → ∀ env roots,
    s.fileRoots.get? env = some roots ↔ ∃ e ∈ entries, l.IsText e.1 env ∧ Roots l e.2 roots
  listed : ∀ entries, doc.get? "file_roots" = some (.map entries) → ∀ e ∈ entries,
    ∃ env roots, l.IsText e.1 env ∧ Roots l e.2 roots ∧ s.fileRoots.get? env = some roots

theorem toNat_ofInt {n : Int} (hpos : 1 ≤ n) (hle : n ≤ 65535) :
    ((UInt16.ofInt n).toNat : Int) = n := by
  rw [UInt16.ofInt, UInt16.toNat_ofNat']
  omega

/-- Only the name changes. -/
theorem named_eq (host : Bytes) (raw : Settings) :
    named host raw = { raw with id := if raw.id.isEmpty then host else raw.id } := by
  rw [named]
  split <;> rfl

theorem exists_of_mem_forall₂ {β γ : Type} {R : β → γ → Prop} {l : List β} {r : List γ} {b : β}
    (h : List.Forall₂ R l r) (hb : b ∈ l) : ∃ c ∈ r, R b c := by
  induction h with
  | nil => exact absurd hb List.not_mem_nil
  | @cons _ c _ r hfirst _ ih =>
    rcases List.mem_cons.1 hb with rfl | hb
    · exact ⟨c, List.mem_cons_self, hfirst⟩
    · obtain ⟨c', hc', hR⟩ := ih hb
      exact ⟨c', List.mem_cons_of_mem c hc', hR⟩

variable {entries : List (Yaml × Yaml)} {pairs : List (Bytes × List Bytes)} {env : Bytes}
  {roots : List Bytes}

theorem asKey_of_isText {env : Bytes} (h : l.IsText node env) : l.asKey node = .scalar env := by
  cases h with
  | scalar => rfl
  | null htext => rw [Yaml.Library.asKey, htext]; rfl

theorem keys_of_assigns (h : List.Forall₂ (Assigns l) entries pairs) :
    (entries.map fun e => l.asKey e.1) = (pairs.map Prod.fst).map Yaml.scalar := by
  induction h with
  | nil => rfl
  | cons hfirst _ ih =>
    rw [List.map_cons, List.map_cons, List.map_cons, asKey_of_isText hfirst.1, ih]

theorem Roots.unique {other : List Bytes} (h : Roots l node roots) (hother : Roots l node other) :
    other = roots := by
  cases (readRoots_eq_ok_iff.2 hother).symm.trans (readRoots_eq_ok_iff.2 h)
  rfl

theorem mem_pairs_iff (h : List.Forall₂ (Assigns l) entries pairs) :
    (env, roots) ∈ pairs ↔ ∃ e ∈ entries, l.IsText e.1 env ∧ Roots l e.2 roots := by
  constructor
  · intro hmem
    have hflip : List.Forall₂ (flip (Assigns l)) pairs entries := h.flip
    obtain ⟨e, he, hkey, hroots⟩ := exists_of_mem_forall₂ hflip hmem
    exact ⟨e, he, hkey, hroots⟩
  · rintro ⟨e, he, hkey, hroots⟩
    obtain ⟨pair, hmem, hother⟩ := exists_of_mem_forall₂ h he
    rw [← hkey.unique hother.1, ← hroots.unique hother.2]
    exact hmem

theorem Given.sound {host : Bytes} (h : Given l host doc s) (hl : l.ReadsDecimals) (hhost : host ≠ [])
    (hdistinct : doc.DistinctKeys l) : Sound l doc s := by
  obtain ⟨-, raw, hraw, hrange, rfl⟩ := h
  -- What holds of the options as they are read holds of them with the name filled in.
  rw [named_eq]
  have hroots : ∀ entries, doc.get? "file_roots" = some (.map entries) →
      ∃ pairs, List.Forall₂ (Assigns l) entries pairs ∧ ∀ env roots,
        raw.fileRoots.get? env = some roots ↔ (env, roots) ∈ pairs := by
    intro entries hget
    obtain ⟨_, pairs, heq, hpairs, hmap⟩ := hraw.fileRoots.reads_of_get? hget nofun
    cases heq
    have hkeys := (hdistinct.get? hget).nodup
    rw [keys_of_assigns hpairs] at hkeys
    refine ⟨pairs, hpairs, fun env roots => ?_⟩
    rw [hmap]
    exact ByteMap.get?_ofList_eq_some_iff hkeys.of_map
  refine ⟨hrange.port_pos, hrange.port_le, hraw.masterPort, ?_,
    toNat_ofInt hrange.port_pos hrange.port_le, hrange.tries, hrange.timeout, ?_, ?_, ?_⟩
  · intro n hget
    exact hl.eq_of_isInt (hraw.masterPort.reads_of_get? hget nofun)
  · dsimp only
    split
    · exact hhost
    · rename_i hid
      exact fun hnil => hid (List.isEmpty_iff.2 hnil)
  · intro entries hget env roots
    obtain ⟨pairs, hpairs, hmem⟩ := hroots entries hget
    rw [hmem, mem_pairs_iff hpairs]
  · intro entries hget e he
    obtain ⟨pairs, hpairs, hmem⟩ := hroots entries hget
    obtain ⟨pair, hpair, hkey, hlisted⟩ := exists_of_mem_forall₂ hpairs he
    exact ⟨pair.1, pair.2, hkey, hlisted, (hmem _ _).2 hpair⟩

/-! ## Texts and files -/

/-- What is expected of a way to read settings from texts, at one of them. -/
structure Settles (l : Yaml.Library) (host : Bytes) (read : Bytes → Except SettingsError Settings)
    (text : Bytes) : Prop where
  /-- The text gives settings exactly when its document does. -/
  ok_iff : ∀ s, read text = .ok s ↔ ∃ doc, l.parse text = .ok doc ∧ Given l host doc s
  sound : ∀ doc s, l.parse text = .ok doc → read text = .ok s → Sound l doc s
  /-- Another order of the options gives the same settings, or fails as well. -/
  order : ∀ text' entries entries', l.parse text = .ok (.map entries) →
    l.parse text' = .ok (.map entries') → entries.Perm entries' → read text' = read text

variable {host text : Bytes}

theorem read_settles (hl : l.ReadsDecimals) (hhost : host ≠ [])
    (hdistinct : ∀ doc, l.parse text = .ok doc → doc.DistinctKeys l) :
    Settles l host (read l blame host) text where
  ok_iff s := read_eq_ok_iff
  sound doc s hparse hread := by
    obtain ⟨doc', hparse', hgiven⟩ := read_eq_ok_iff.1 hread
    cases hparse.symm.trans hparse'
    exact hgiven.sound hl hhost (hdistinct doc hparse)
  order text' entries entries' hparse hparse' hperm := by
    rw [read, read, hparse, hparse']
    exact ofDocument_of_perm (hdistinct _ hparse).nodup hperm

/-- Settings are read from a text, and from a file that holds it; a file that cannot be read gives an
error. The library may read other spellings of numbers than decimal digits as it likes. -/
theorem parse_and_load_settle (hl : l.ReadsDecimals) (hhost : host ≠ [])
    (hdistinct : ∀ doc, l.parse text = .ok doc → doc.DistinctKeys l) :
    Settles l host (parse l host) text ∧
      ∀ file, Settles l host (fun text => load l host file (some text)) text ∧
        load l host file none = .error (.unreadable file (.unreadableFile file)) :=
  ⟨read_settles hl hhost hdistinct, fun _ => ⟨read_settles hl hhost hdistinct, rfl⟩⟩

/-- The directories of three environments. -/
def threeEnvironments : List (Yaml × Yaml) := [
  (.scalar "base", .list [.scalar "/b", .scalar "/a"]), (.scalar "dev", .scalar "/c"),
  (.scalar "none", .null)]

/-- The options `id`, `master_port` and `file_roots`, one after the other. -/
def threeOptions : List (Yaml × Yaml) := [
  (.scalar "id", .scalar []), (.scalar "master_port", .scalar "8080"),
  (.scalar "file_roots", .map threeEnvironments)]

/-- A document with these options. -/
def spelled : Bytes :=
  "\x7bid: \"\", master_port: 8080, file_roots: \x7bbase: [/b, /a], dev: /c, none: ~\x7d\x7d"

/-- The same options the other way round. -/
def turned : Bytes :=
  "\x7bfile_roots: \x7bbase: [/b, /a], dev: /c, none: ~\x7d, master_port: 8080, id: \"\"\x7d"

theorem nodup_scalars {texts : List Bytes} (h : texts.Nodup) : (texts.map Yaml.scalar).Nodup :=
  h.map fun _ _ heq => Yaml.scalar.inj heq

theorem distinctKeys_threeOptions : (Yaml.map threeOptions).DistinctKeys l := by
  have henvironments : (Yaml.map threeEnvironments).DistinctKeys l := by
    refine Yaml.distinctKeys_map (@nodup_scalars ["base", "dev", "none"] (by decide)) ?_
    simp [threeEnvironments, Yaml.distinctKeys_scalar, Yaml.distinctKeys_null,
      Yaml.distinctKeys_list]
  refine Yaml.distinctKeys_map
    (@nodup_scalars ["id", "master_port", "file_roots"] (by decide)) ?_
  simp [threeOptions, Yaml.distinctKeys_scalar, henvironments]

/-- The options come the other way round, and the name is that of the host. -/
theorem parse_and_load_settle_turned :
    Yaml.flow.ReadsDecimals ∧ ("web01" : Bytes) ≠ [] ∧
      (∀ doc, Yaml.flow.parse spelled = .ok doc → doc.DistinctKeys Yaml.flow) ∧
      ∃ s, parse Yaml.flow "web01" spelled = .ok s ∧ Sound Yaml.flow (.map threeOptions) s ∧
        s.masterPort = 8080 ∧ s.id = "web01" ∧
        s.fileRoots.get? "base" = (some ["/b", "/a"] : Option (List Bytes)) ∧
        parse Yaml.flow "web01" turned = parse Yaml.flow "web01" spelled ∧
        load Yaml.flow "web01" "minion" (some turned) =
          load Yaml.flow "web01" "minion" (some spelled) := by
  have hhost : ("web01" : Bytes) ≠ [] := List.cons_ne_nil _ _
  have hspelled : Yaml.flow.parse spelled = .ok (.map threeOptions) := by rfl
  have hturned : Yaml.flow.parse turned = .ok (.map threeOptions.reverse) := by rfl
  have hperm : threeOptions.Perm threeOptions.reverse := (List.reverse_perm _).symm
  have hdistinct : ∀ doc, Yaml.flow.parse spelled = .ok doc → doc.DistinctKeys Yaml.flow := by
    intro doc hdoc
    cases hspelled.symm.trans hdoc
    exact distinctKeys_threeOptions
  have hsettles := parse_and_load_settle Yaml.flow_readsDecimals hhost hdistinct
  have hsound := hsettles.1.sound _ _ hspelled (by rfl)
  refine ⟨Yaml.flow_readsDecimals, hhost, hdistinct, _, by rfl, hsound, hsound.port_written 8080 rfl,
    by rfl, by rfl, ?_, ?_⟩
  · exact hsettles.1.order turned _ _ hspelled hturned hperm
  · exact (hsettles.2 "minion").1.order turned _ _ hspelled hturned hperm

end FileCourier.Settings
