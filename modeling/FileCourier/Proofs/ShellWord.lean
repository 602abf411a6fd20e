import FileCourier.LocalRoots

/-!
# The client as one argument

Between quotes a shell takes every byte for itself, and behind each byte of a quoted text it is
between quotes again (`read?_escape`). So it reads a quoted text back as one word (`words?_write`),
and the classifier is run with its own words and the name of the client as one more
(`id_passed_whole`).
-/

namespace FileCourier

namespace ShellWord

variable {s t : Bytes} {ws : List Bytes} {c : UInt8}

theorem escape_append (s t : Bytes) : escape (s ++ t) = escape s ++ escape t := List.flatMap_append

namespace Reader

variable {words : List Bytes} {word : Option Bytes} {text : Bytes}

theorem read?_cons (r : Reader) (c : UInt8) (t : Bytes) :
    r.read? (c :: t) = (r.step? c).bind fun r => r.read? t := rfl

theorem read?_append (r : Reader) (s t : Bytes) :
    r.read? (s ++ t) = (r.read? s).bind fun r => r.read? t := List.foldlM_append

theorem step?_quoted (h0 : c ≠ 0) (hc : c ≠ quote) :
    step? ⟨words, .quoted text⟩ c = some ⟨words, .quoted (text ++ [c])⟩ := by
  rw [step?, if_neg h0]
  exact if_neg hc

/-- Behind a quote that was taken out of the quotes the reader is between quotes again. -/
theorem read?_escape_singleton (h0 : c ≠ 0) :
    read? ⟨words, .quoted text⟩ (escape [c]) = some ⟨words, .quoted (text ++ [c])⟩ := by
  by_cases hc : c = quote
  · subst hc
    rfl
  · have hescape : escape [c] = [c] := by rw [escape, List.flatMap_singleton, if_neg hc]
    rw [hescape, read?_cons, step?_quoted h0 hc]
    rfl

theorem read?_escape (hs : 0 ∉ s) :
    read? ⟨words, .quoted text⟩ (escape s) = some ⟨words, .quoted (text ++ s)⟩ := by
  -- The reader is between quotes in front of each byte; only what it has read there grows.
  induction s generalizing text with
  | nil => rw [List.append_nil]; rfl
  | cons c s ih =>
    obtain ⟨h0, hs⟩ := not_or.1 (mt List.mem_cons.2 hs)
    have hescape : escape (c :: s) = escape [c] ++ escape s := escape_append [c] s
    rw [hescape, read?_append, read?_escape_singleton (Ne.symm h0), Option.bind_some, ih hs,
      List.append_assoc, List.singleton_append]

/-- A quoted text is added to the word in which it stands, or is a word by itself. -/
theorem read?_write (hs : 0 ∉ s) :
    read? ⟨words, .plain word⟩ (write s) = some ⟨words, .plain (some (word.getD [] ++ s))⟩ := by
  have hopen : step? ⟨words, .plain word⟩ quote = some ⟨words, .quoted (word.getD [])⟩ := rfl
  rw [write, read?_cons, hopen, Option.bind_some, read?_append, read?_escape hs]
  rfl

theorem read?_blank_write (hs : 0 ∉ s) :
    read? ⟨words, .plain word⟩ (" " ++ write s) =
      some ⟨words ++ word.toList, .plain (some s)⟩ := by
  have hblank : read? ⟨words, .plain word⟩ " " = some ⟨words ++ word.toList, .plain none⟩ := rfl
  rw [read?_append, hblank, Option.bind_some, read?_write hs]
  rfl

end Reader

theorem words?_eq_some_iff : words? t = some ws ↔
    ∃ words word, ({} : Reader).read? t = some ⟨words, .plain word⟩ ∧ words ++ word.toList = ws := by
  rw [words?]
  constructor
  · intro h
    split at h
    · rename_i words word hread
      exact ⟨words, word, hread, Option.some.inj h⟩
    · cases h
  · rintro ⟨words, word, hread, rfl⟩
    rw [hread]

theorem words?_write (hs : 0 ∉ s) : words? (write s) = some [s] :=
  words?_eq_some_iff.2 ⟨[], some s, Reader.read?_write hs, rfl⟩

theorem words?_append_write (ht : words? t = some ws) (hs : 0 ∉ s) :
    words? (t ++ " " ++ write s) = some (ws ++ [s]) := by
  obtain ⟨words, word, hread, rfl⟩ := words?_eq_some_iff.1 ht
  refine words?_eq_some_iff.2 ⟨words ++ word.toList, some s, ?_, rfl⟩
  rw [List.append_assoc, Reader.read?_append, hread]
  exact Reader.read?_blank_write hs

example : words? "nodes 'it'\\''s;'" = some (["nodes", "it's;"] : List Bytes) := by rfl

end ShellWord

namespace LocalRoots

open ShellWord (Reader words? write)

variable {σ : Type}

/-- Of all that a host can run only the command line is run. -/
theorem classes_of_run_eq (l : LocalRoots σ) {run : Bytes → Action (World σ) Bytes}
    (h : run (commandLine l.settings) = l.run (commandLine l.settings)) :
    ({ l with run } : LocalRoots σ).classes = l.classes := by
  unfold classes
  dsimp only
  rw [h]

/-- The quoted name of a client is one word that has the name as its value, also behind anything that
leaves a shell outside of quotes. So the command line is the words of the command with the name as
one more, and no other line is ever run. -/
theorem id_passed_whole {id : Bytes} (hid : 0 ∉ id) :
    words? (write id) = some [id] ∧
    (∀ words word, Reader.read? ⟨words, .plain word⟩ (" " ++ write id) =
      some ⟨words ++ word.toList, .plain (some id)⟩) ∧
    ∀ (s : Settings) (ws : List Bytes), s.id = id → words? s.externalNodes = some ws →
      words? (commandLine s) = some (ws ++ [id]) ∧
      ∀ {σ : Type} (l : LocalRoots σ) (run : Bytes → Action (World σ) Bytes), l.settings = s →
        (∀ line, words? line = some (ws ++ [id]) → run line = l.run line) →
        ({ l with run } : LocalRoots σ).classes = l.classes := by
  refine ⟨ShellWord.words?_write hid, fun _ _ => Reader.read?_blank_write hid, ?_⟩
  rintro s ws rfl hcommand
  have hline : words? (commandLine s) = some (ws ++ [s.id]) :=
    ShellWord.words?_append_write hcommand hid
  refine ⟨hline, ?_⟩
  rintro σ l run rfl hrun
  exact classes_of_run_eq l (hrun _ hline)

/-- A command that can be run is run with the name of the client, and what it writes is read. -/
theorem classes_of_isRunnable (l : LocalRoots σ) {w : World σ}
    (hcommand : l.settings.externalNodes.isEmpty = false)
    (hrunnable : isRunnable l.searchPath l.settings.externalNodes w.disk = true) :
    l.classes w = (l.run (commandLine l.settings) >>= fun text =>
      Action.ofExcept .yaml (NodeClasses.read l.yaml text) : Action (World σ) _) w := by
  rw [classes, hcommand]
  change (if !isRunnable l.searchPath l.settings.externalNodes w.disk then _ else _ :
    Action (World σ) (ByteMap (List Bytes))) w = _
  rw [hrunnable]
  rfl

/-- A client whose name closes quotes and goes on with a command of its own. -/
def intruder : Settings :=
  { Settings.defaults with externalNodes := "./nodes", id := "it's; rm -rf '$HOME'" }

/-- A host of this client whose classifier writes `answer` when the name is its one argument. Any other
line does something else. -/
def beset (answer : Bytes) (other : Action (World Unit) Bytes) : LocalRoots Unit where
  settings := intruder
  digests := Digest.library
  yaml := Yaml.flow
  searchPath := none
  run line := if words? line = some [intruder.externalNodes, intruder.id] then pure answer else other

/-- The disk of this host, with a classifier that can be run. -/
def besetWorld : World Unit := ⟨⟨[(["nodes"], .file true "")], []⟩, ()⟩

/-- The classifier is run with the whole name, and nothing else is. -/
theorem id_passed_whole_intruder :
    0 ∉ intruder.id ∧
    words? intruder.externalNodes = some [intruder.externalNodes] ∧
    words? (write intruder.id) = some [intruder.id] ∧
    words? (commandLine intruder) = some [intruder.externalNodes, intruder.id] ∧
    ∀ other, (beset "\x7bclasses: [ntp]\x7d" other).classes besetWorld =
      (.ok (.ofList [("base", ["ntp"])]), besetWorld) := by
  have hid : 0 ∉ intruder.id := by decide
  have hcommand : words? intruder.externalNodes = some [intruder.externalNodes] := by rfl
  obtain ⟨hword, -, hpassed⟩ := id_passed_whole hid
  obtain ⟨hline, hrun⟩ := hpassed intruder _ rfl hcommand
  refine ⟨hid, hcommand, hword, hline, fun other => ?_⟩
  -- Whatever the other lines do, the classes are those of a host on which every line writes the answer.
  let answer : Bytes := "\x7bclasses: [ntp]\x7d"
  have hsame := hrun { beset answer other with run := fun _ => pure answer } (beset answer other).run rfl
    fun line h => if_pos h
  refine (congrFun hsame besetWorld).trans ?_
  rw [classes_of_isRunnable _ rfl rfl]
  rfl

end LocalRoots

end FileCourier
