import FileCourier.Proofs.Console.Commands

/-!
# What is written at the console

Each line is answered by what its words ask for and by what becomes of its request (`Takes`), in the
environment that the lines before it have switched to (`Environment`). A run answers the lines before
`quit` one after the other, with a prompt behind each answer, and no fault of a request ends it
(`run_transcribes`).
-/

namespace FileCourier

namespace Console

open Command (Asks Switches Words)
open Request (Shows)

/-! ## Lines -/

/-- The lines of an input, each of them ended, except perhaps the last. -/
inductive Lines : Bytes → List Bytes → Prop
  | nil : Lines [] []
  | last {line : Bytes} : line ≠ [] → 10 ∉ line → Lines line [line]
  | line {line rest : Bytes} {lines : List Bytes} : 10 ∉ line → Lines rest lines →
      Lines (line ++ 10 :: rest) (line :: lines)

theorem linesOf_line {line rest : Bytes} (h : 10 ∉ line) :
    linesOf (line ++ 10 :: rest) = line :: linesOf rest := by
  obtain ⟨part, parts, hparts⟩ := List.exists_cons_of_ne_nil (List.splitOn_ne_nil 10 rest)
  rw [linesOf, linesOf, List.splitOn_append_cons_self_of_not_mem h, hparts, List.getLast?_cons_cons]
  split <;> rfl

theorem linesOf_last {line : Bytes} (hne : line ≠ []) (h : 10 ∉ line) : linesOf line = [line] := by
  rw [linesOf, List.splitOn_eq_singleton h]
  exact if_neg fun hnil => hne (Option.some.inj hnil)

theorem Lines.eq {input : Bytes} {lines : List Bytes} (h : Lines input lines) :
    linesOf input = lines := by
  induction h with
  | nil => rfl
  | last hne hline => exact linesOf_last hne hline
  | line hline _ ih => rw [linesOf_line hline, ih]

/-- A byte in front of an input begins its first line. -/
theorem Lines.exists_cons {rest : Bytes} {lines : List Bytes} {c : UInt8} (h : Lines rest lines)
    (hc : 10 ≠ c) : ∃ lines', Lines (c :: rest) lines' := by
  have hextend {line : Bytes} (hline : 10 ∉ line) : 10 ∉ c :: line :=
    fun h => (List.mem_cons.1 h).elim hc hline
  cases h with
  | nil => exact ⟨_, .last (List.cons_ne_nil c []) (hextend List.not_mem_nil)⟩
  | last _ hline => exact ⟨_, .last (List.cons_ne_nil c rest) (hextend hline)⟩
  | @line line _ _ hline hrest => exact ⟨_, .line (hextend hline) hrest⟩

theorem exists_lines (input : Bytes) : ∃ lines, Lines input lines := by
  induction input with
  | nil => exact ⟨[], .nil⟩
  | cons c rest ih =>
    obtain ⟨lines, hrest⟩ := ih
    by_cases hc : 10 = c
    · exact ⟨[] :: lines, hc ▸ .line List.not_mem_nil hrest⟩
    · exact hrest.exists_cons hc

theorem lines_linesOf (input : Bytes) : Lines input (linesOf input) := by
  obtain ⟨lines, h⟩ := exists_lines input
  rwa [h.eq]

/-! ## Environments -/

/-- The environment behind some lines: the one that the last of them that switches switches to, or the
first environment when none does. -/
inductive Environment (first : Bytes) : List Bytes → Bytes → Prop
  | first {past : List Bytes} : (∀ line ∈ past, ∀ env, ¬Switches line env) → Environment first past first
  | switched {past later : List Bytes} {line env : Bytes} : Switches line env →
      (∀ line ∈ later, ∀ env, ¬Switches line env) → Environment first (past ++ line :: later) env

variable {first here line env : Bytes} {past : List Bytes}

theorem Environment.nil (first : Bytes) : Environment first [] first := .first nofun

theorem Environment.snoc_switched (h : Switches line env) : Environment first (past ++ [line]) env :=
  .switched h nofun

theorem Environment.snoc (h : Environment first past here) (hline : ∀ env, ¬Switches line env) :
    Environment first (past ++ [line]) here := by
  have hsnoc {lines : List Bytes} (hlines : ∀ line ∈ lines, ∀ env, ¬Switches line env) :
      ∀ l ∈ lines ++ [line], ∀ env, ¬Switches l env :=
    List.forall_mem_append.2 ⟨hlines, List.forall_mem_singleton.2 hline⟩
  cases h with
  | first hpast => exact .first (hsnoc hpast)
  | switched hswitches hlater =>
    rw [List.append_assoc]
    exact .switched hswitches (hsnoc hlater)

/-! ## One line -/

variable {τ : Type} {attend : Attendant τ} {t t' : τ} {text : Bytes}

/-- What is written for a line, and what its request leaves behind. -/
inductive Takes (attend : Attendant τ) (here line : Bytes) (t : τ) : Bytes → τ → Prop
  | blank : Words line [] → Takes attend here line t [] t
  | help {more : List Bytes} : Words line ("help" :: more) →
      Takes attend here line t (unlines helpLines) t
  | switched {env : Bytes} : Switches line env →
      Takes attend here line t (unlines ["Environment set to " ++ env]) t
  | unknown {name : Bytes} {more : List Bytes} : Words line (name :: more) →
      (∀ command, ¬Asks (name :: more) command) →
      Takes attend here line t (unlines ["Unknown command or invalid arguments"]) t
  | answered {name : Bytes} {more : List Bytes} {r : Request} {result : r.Result} {lines : List Bytes}
      {t' : τ} : Words line (name :: more) → Asks (name :: more) (.request r) →
      (attend r here).run t = (.ok result, t') → Shows here r result lines →
      Takes attend here line t (unlines lines) t'
  | failed {name : Bytes} {more : List Bytes} {r : Request} {fault : Fault} {t' : τ} :
      Words line (name :: more) → Asks (name :: more) (.request r) →
      (attend r here).run t = (.error fault, t') →
      Takes attend here line t (unlines ["Error running " ++ name ++ ": " ++ fault.message]) t'

theorem respond_request {name : Bytes} {r : Request}
    (h : Command.ofLine? line = some (name, .request r)) :
    (respond attend here line).run t =
      ((report name here r ((attend r here).run t).1, here), ((attend r here).run t).2) := by
  rw [respond, h]
  rfl

theorem takes_iff : Takes attend here line t text t' ↔
    ∃ after, (respond attend here line).run t = ((text, after), t') := by
  constructor
  · intro h
    cases h with
    | blank hline => exact ⟨here, by rw [respond, Command.ofLine?_eq_none_iff.2 hline]; rfl⟩
    | help hwords =>
      exact ⟨here, by rw [respond, Command.ofLine?_eq_some_iff.2 ⟨_, hwords, .inl .help⟩]; rfl⟩
    | @switched env hswitches =>
      obtain ⟨name, hline⟩ := Command.exists_ofLine?_eq_env_iff.2 hswitches
      exact ⟨env, by rw [respond, hline]; rfl⟩
    | unknown hwords hno =>
      exact ⟨here, by rw [respond, Command.ofLine?_eq_some_iff.2 ⟨_, hwords, .inr ⟨rfl, hno⟩⟩]; rfl⟩
    | answered hwords hasks hrun hshows =>
      have hline := Command.ofLine?_eq_some_iff.2 ⟨_, hwords, .inl hasks⟩
      exact ⟨here, by rw [respond_request hline, hrun, ← Request.shows_iff.1 hshows]; rfl⟩
    | failed hwords hasks hrun =>
      have hline := Command.ofLine?_eq_some_iff.2 ⟨_, hwords, .inl hasks⟩
      exact ⟨here, by rw [respond_request hline, hrun]; rfl⟩
  · rintro ⟨after, h⟩
    cases hline : Command.ofLine? line with
    | none =>
      rw [respond, hline] at h
      cases h
      exact .blank (Command.ofLine?_eq_none_iff.1 hline)
    | some asked =>
      obtain ⟨name, command⟩ := asked
      obtain ⟨more, hwords, hasks | ⟨rfl, hno⟩⟩ := Command.ofLine?_eq_some_iff.1 hline
      · cases command with
        | help =>
          rw [respond, hline] at h
          cases h
          cases hasks
          exact .help hwords
        | env env =>
          rw [respond, hline] at h
          cases h
          exact .switched (Command.exists_ofLine?_eq_env_iff.1 ⟨name, hline⟩)
        | unknown => cases hasks
        | request r =>
          rw [respond_request hline] at h
          cases hrun : (attend r here).run t with
          | mk outcome s =>
            rw [hrun] at h
            cases h
            cases outcome with
            | ok result => exact .answered hwords hasks hrun (Request.shows_iff.2 rfl)
            | error fault => exact .failed hwords hasks hrun
      · rw [respond, hline] at h
        cases h
        exact .unknown hwords hno

/-- A line that switches to no environment leaves it as it is. -/
theorem respond_environment (h : Environment first past here) :
    Environment first (past ++ [line]) ((respond attend here line).run t).1.2 := by
  by_cases hswitches : ∃ env, Switches line env
  · obtain ⟨env, henv⟩ := hswitches
    obtain ⟨name, hline⟩ := Command.exists_ofLine?_eq_env_iff.2 henv
    rw [respond, hline]
    exact .snoc_switched henv
  · have hno := not_exists.1 hswitches
    cases hline : Command.ofLine? line with
    | none =>
      rw [respond, hline]
      exact h.snoc hno
    | some asked =>
      obtain ⟨name, command⟩ := asked
      cases command with
      | env env => exact absurd (Command.exists_ofLine?_eq_env_iff.1 ⟨name, hline⟩) (hno env)
      | help | unknown | request =>
        rw [respond, hline]
        exact h.snoc hno

/-! ## All lines -/

/-- Lines that are answered one after the other, each in the environment that those before it have
switched to, with what is written for each. -/
inductive Course (attend : Attendant τ) (first : Bytes) :
    List Bytes → τ → List (Bytes × Bytes) → τ → Prop
  | stop {past : List Bytes} {t : τ} : Course attend first past t [] t
  | turn {past : List Bytes} {t t' t'' : τ} {here line text : Bytes} {turns : List (Bytes × Bytes)} :
      Environment first past here → Takes attend here line t text t' →
      Course attend first (past ++ [line]) t' turns t'' →
      Course attend first past t ((line, text) :: turns) t''

theorem converse_cons {rest : List Bytes} {after more last : Bytes} {t₁ : τ} (hline : line ≠ quit)
    (hstep : (respond attend here line).run t = ((text, after), t₁))
    (hrest : (converse attend after rest).run t₁ = ((more, last), t')) :
    (converse attend here (line :: rest)).run t = ((text ++ prompt ++ more, last), t') := by
  have hparts : (converse attend here (line :: rest)).run t =
      match (respond attend here line).run t with
      | ((text, after), t₁) =>
        match (converse attend after rest).run t₁ with
        | ((more, last), t') => ((text ++ prompt ++ more, last), t') := by
    rw [converse, if_neg hline]
    rfl
  rw [hparts, hstep]
  dsimp only
  rw [hrest]

theorem converse_transcribes (attend : Attendant τ) (lines : List Bytes) (t : τ)
    (h : Environment first past here) :
    ∃ turns last t', Course attend first past t turns t' ∧
      turns.map Prod.fst = lines.takeWhile (· ≠ quit) ∧
      Environment first (past ++ turns.map Prod.fst) last ∧
      (converse attend here lines).run t =
        ((turns.flatMap fun (_, text) => text ++ prompt, last), t') := by
  induction lines generalizing past here t with
  | nil =>
    refine ⟨[], here, t, .stop, rfl, ?_, rfl⟩
    rwa [List.map_nil, List.append_nil]
  | cons line rest ih =>
    by_cases hquit : line = quit
    · refine ⟨[], here, t, .stop, ?_, ?_, ?_⟩
      · rw [List.takeWhile_cons_of_neg (by simpa using hquit), List.map_nil]
      · rwa [List.map_nil, List.append_nil]
      · rw [converse, if_pos hquit]
        rfl
    · cases hstep : (respond attend here line).run t with
      | mk written t₁ =>
        obtain ⟨text, after⟩ := written
        have hafter : Environment first (past ++ [line]) after := by
          have hwritten : Environment first (past ++ [line]) ((respond attend here line).run t).1.2 :=
            respond_environment h
          rwa [hstep] at hwritten
        obtain ⟨turns, last, t', hcourse, hlines, hlast, hrest⟩ := ih t₁ hafter
        refine ⟨(line, text) :: turns, last, t', .turn h (takes_iff.2 ⟨after, hstep⟩) hcourse,
          ?_, ?_, ?_⟩
        · rw [List.takeWhile_cons_of_pos (by simpa using hquit), List.map_cons, hlines]
        · rwa [List.append_assoc] at hlast
        · rw [converse_cons hquit hstep hrest, List.flatMap_cons]

/-- Whatever an attendant does and however it fails, one prompt is written, and then for each line before
`quit` what is written for it, with one prompt behind it. -/
theorem run_transcribes (attend : Attendant τ) (here input : Bytes) (t : τ) :
    ∃ lines turns last t', Lines input lines ∧
      turns.map Prod.fst = lines.takeWhile (· ≠ quit) ∧
      Course attend here [] t turns t' ∧ Environment here (turns.map Prod.fst) last ∧
      (run attend here input).run t =
        ((prompt ++ turns.flatMap fun (_, text) => text ++ prompt, last), t') := by
  obtain ⟨turns, last, t', hcourse, hturns, hlast, hrun⟩ :=
    converse_transcribes attend (linesOf input) t (.nil here)
  refine ⟨linesOf input, turns, last, t', lines_linesOf input, hturns, hcourse, hlast, ?_⟩
  have hparts : (run attend here input).run t =
      match (converse attend here (linesOf input)).run t with
      | ((text, last), t') => ((prompt ++ text, last), t') := rfl
  rw [hparts, hrun]

/-- An attendant that counts what it is asked for. It lists two files, caches what begins with a slash,
and fails at everything else. -/
def countingAttendant : Attendant Nat
  | .files, env => do
    modify (· + 1)
    return some [env ++ "/a", env ++ "/b"]
  | .cacheFile url, _ => do
    modify (· + 1)
    return if url.head? = some 47 then "cache" ++ url else []
  | _, _ => do
    modify (· + 1)
    throw (.unmarked "web")

/-- Lines of each kind, and some behind the one that ends the console. -/
def mixedInput : Bytes :=
  "file_list\n \nenv  dev b\nfile_list x\ncache_file /a\ncache_file\n" ++
    "cache_dir web\ncache_file b\n quit\nquit\nenv prod\n"

/-- What is written for them. -/
def mixedTranscript : Bytes :=
  prompt ++ "base/a\nbase/b\n" ++ prompt ++ prompt ++ "Environment set to dev\n" ++ prompt ++
    "dev/a\ndev/b\n" ++ prompt ++ "cache/a\n" ++ prompt ++
    "Unknown command or invalid arguments\n" ++ prompt ++
    "Error running cache_dir: Unsupported path: web\n" ++ prompt ++ "Could not cache b\n" ++ prompt ++
    "Unknown command or invalid arguments\n" ++ prompt

theorem run_transcribes_mixed :
    ∃ turns, turns.map Prod.fst = [Bytes.ofString "file_list", " ", "env  dev b", "file_list x",
        "cache_file /a", "cache_file", "cache_dir web", "cache_file b", " quit"] ∧
      Course countingAttendant "base" [] 0 turns 5 ∧
      Environment "base" (turns.map Prod.fst) "dev" ∧
      prompt ++ (turns.flatMap fun (_, text) => text ++ prompt) = mixedTranscript := by
  obtain ⟨lines, turns, last, t', hlines, hturns, hcourse, hlast, hrun⟩ :=
    run_transcribes countingAttendant "base" mixedInput 0
  have htext : ((run countingAttendant "base" mixedInput).run 0).1.1 = mixedTranscript := by
    decide +kernel
  have henv : ((run countingAttendant "base" mixedInput).run 0).1.2 = "dev" := by decide +kernel
  have hcount : ((run countingAttendant "base" mixedInput).run 0).2 = 5 := by decide +kernel
  rw [hrun] at htext henv hcount
  cases henv
  cases hcount
  rw [← hlines.eq] at hturns
  exact ⟨turns, hturns.trans (by decide +kernel), hcourse, hlast, htext⟩

end Console

end FileCourier
