import FileCourier.Proofs.Courier.Stocking

/-!
# States by name

A state has two spellings: the name that a listing gives it, in which the slashes of its path are dots,
and the two paths that are tried for a name, in which dots are slashes. What a listing makes of a file is
given by `Courier.StateAt`. The spellings fit together for paths without dots of their own: such a state is
found under its name (`Courier.exists_getState`), in a file that is listed under it, but for the one name
that stands both for a file `m/init.sls` and for a directory `m/init` (`Courier.states_resolved`).
-/

namespace FileCourier

open FileCourier.Path (Normalised Proper)

variable {σ : Type} {c : Courier σ} {env file stem above suffix n candidate dest : Bytes} {files rest : List Bytes}
  {I : World σ → Prop} {w w' : World σ}

/-- Replaced bytes are brought back, if none of the new ones was there before. -/
theorem Bytes.replace_replace {s : Bytes} {old new : UInt8} (h : new ∉ s) :
    Bytes.replace (Bytes.replace s old new) new old = s := by
  rw [Bytes.replace, Bytes.replace, List.map_map]
  refine (List.map_congr_left fun b hb => ?_).trans (List.map_id s)
  have hne : b ≠ new := fun heq => h (heq ▸ hb)
  by_cases heq : b = old
  · simp [heq]
  · simp [heq, hne]

theorem Bytes.replace_append (s t : Bytes) (old new : UInt8) :
    Bytes.replace (s ++ t) old new = Bytes.replace s old new ++ Bytes.replace t old new :=
  List.map_append

theorem Bytes.not_mem_replace {old new : UInt8} (hne : new ≠ old) (s : Bytes) :
    old ∉ Bytes.replace s old new := by
  intro hmem
  obtain ⟨b, -, hb⟩ := List.mem_map.1 hmem
  split at hb
  · exact hne hb
  · exact absurd hb ‹_›

namespace Path

theorem Proper.append {name suffix : Bytes} (h : Proper name) (hlength : 2 < suffix.length)
    (hslash : slash ∉ suffix) (hnul : 0 ∉ suffix) : Proper (name ++ suffix) := by
  have hlong : 2 < (name ++ suffix).length := by
    rw [List.length_append]
    omega
  refine ⟨fun hdot => ?_, fun hdotDot => ?_, List.append_ne_nil_of_left_ne_nil h.ne_nil suffix, ?_, ?_⟩
  · rw [hdot] at hlong
    exact absurd hlong (by decide)
  · rw [hdotDot] at hlong
    exact absurd hlong (by decide)
  · rw [List.mem_append, not_or]
    exact ⟨h.no_slash, hslash⟩
  · rw [List.mem_append, not_or]
    exact ⟨h.no_nul, hnul⟩

theorem listed_append_suffix (above : List Bytes) (name suffix : Bytes) :
    LocalRoots.listed (above ++ [name]) ++ suffix = LocalRoots.listed (above ++ [name ++ suffix]) := by
  by_cases hne : above = []
  · rw [hne, List.nil_append, List.nil_append, listed_singleton, listed_singleton]
  · rw [listed_append hne (List.cons_ne_nil _ _), listed_append hne (List.cons_ne_nil _ _),
      listed_singleton, listed_singleton, List.append_assoc, List.cons_append]

/-- The directory of a normalised path may have an ending instead of a further name. -/
theorem Normalised.append_suffix {s name suffix : Bytes} (h : Normalised ⟨s ++ slash :: name⟩)
    (hlength : 2 < suffix.length) (hslash : slash ∉ suffix) (hnul : 0 ∉ suffix) :
    Normalised ⟨s ++ suffix⟩ := by
  have hsegments := fun n hn => (h.proper n hn).segment
  obtain ⟨above, hne, hpre, rfl⟩ := exists_listed_of_slash hsegments h.text_eq.symm
  obtain ⟨front, last, rfl⟩ : ∃ front last, above = front ++ [last] :=
    ⟨_, _, (List.dropLast_concat_getLast hne).symm⟩
  have hproper := fun n hn => h.proper n (hpre.subset hn)
  have hlonger : ∀ n ∈ front ++ [last ++ suffix], Proper n := by
    refine List.forall_mem_append.2 ⟨fun n hn => hproper n (List.mem_append_left _ hn), ?_⟩
    exact List.forall_mem_singleton.2
      ((hproper last (List.mem_append_right _ List.mem_cons_self)).append hlength hslash hnul)
  rw [listed_append_suffix, listed_eq_spell hlonger]
  exact normalised_spell hlonger (List.append_ne_nil_of_right_ne_nil front (List.cons_ne_nil _ _))

end Path

namespace Courier

/-! ## The state of a file -/

/-- What stands before an ending, if there is anything. -/
def cutEnd? (suffix file : Bytes) : Option Bytes :=
  if suffix.length < file.length ∧ Bytes.endsWith file suffix then
    some (file.take (file.length - suffix.length))
  else none

theorem cutEnd?_eq_some_iff : cutEnd? suffix file = some stem ↔ stem ≠ [] ∧ file = stem ++ suffix := by
  have hends : Bytes.endsWith file suffix = true ↔ suffix <:+ file := List.isSuffixOf_iff_suffix
  rw [cutEnd?]
  constructor
  · intro h
    split at h
    · rename_i hcut
      obtain ⟨hlength, hsuffix⟩ := hcut
      obtain ⟨before, rfl⟩ := hends.1 hsuffix
      rw [List.length_append, Nat.add_sub_cancel, List.take_left, Option.some_inj] at h
      subst h
      refine ⟨fun hnil => ?_, rfl⟩
      rw [hnil] at hlength
      exact absurd hlength (by simp)
    · cases h
  · rintro ⟨hne, rfl⟩
    have hlength : suffix.length < (stem ++ suffix).length := by
      have hpos := List.length_pos_iff.2 hne
      rw [List.length_append]
      omega
    rw [if_pos ⟨hlength, hends.2 (List.suffix_append stem suffix)⟩, List.length_append, Nat.add_sub_cancel,
      List.take_left]

theorem append_init (stem : Bytes) : stem ++ "/init" ++ ".sls" = stem ++ "/init.sls" :=
  List.append_assoc stem _ _

/-- The file that holds the state of a path: the path with an ending, or the file that a directory of the
path is opened with. The latter is told by its name. -/
inductive StateAt (stem : Bytes) : Bytes → Prop
  | module : stem ≠ [] → (∀ above : Bytes, above ≠ [] → stem ≠ above ++ "/init") →
      StateAt stem (stem ++ ".sls")
  | init : stem ≠ [] → StateAt stem (stem ++ "/init.sls")

theorem stateOf?_eq_some_iff : stateOf? file = some n ↔
    ∃ stem, StateAt stem file ∧ n = Bytes.replace stem slash (Bytes.ascii '.') := by
  have hstate : stateOf? file = ((cutEnd? ".sls" file).map fun name =>
      (cutEnd? "/init.sls" file).getD name).map fun name =>
        Bytes.replace name slash (Bytes.ascii '.') := rfl
  rw [hstate, Option.map_map, Option.map_eq_some_iff]
  constructor
  · rintro ⟨name, hname, rfl⟩
    obtain ⟨hne, rfl⟩ := cutEnd?_eq_some_iff.1 hname
    cases hcut : cutEnd? "/init.sls" (name ++ ".sls") with
    | none =>
      refine ⟨name, .module hne fun above habove heq => ?_, rfl⟩
      rw [heq, append_init, cutEnd?_eq_some_iff.2 ⟨habove, rfl⟩] at hcut
      cases hcut
    | some stem =>
      obtain ⟨hstem, heq⟩ := cutEnd?_eq_some_iff.1 hcut
      exact ⟨stem, heq ▸ .init hstem, rfl⟩
  · rintro ⟨stem, hat, rfl⟩
    cases hat with
    | module hne hother =>
      have hnone : cutEnd? "/init.sls" (stem ++ ".sls") = none := by
        refine Option.eq_none_iff_forall_ne_some.2 fun above hcut => ?_
        obtain ⟨habove, heq⟩ := cutEnd?_eq_some_iff.1 hcut
        rw [← append_init] at heq
        exact hother above habove (List.append_cancel_right heq)
      exact ⟨stem, cutEnd?_eq_some_iff.2 ⟨hne, rfl⟩, by simp [hnone]⟩
    | init hne =>
      have hmodule : cutEnd? ".sls" (stem ++ "/init.sls") = some (stem ++ "/init") :=
        cutEnd?_eq_some_iff.2 ⟨List.append_ne_nil_of_left_ne_nil hne _, (append_init stem).symm⟩
      have hcut : cutEnd? "/init.sls" (stem ++ "/init.sls") = some stem :=
        cutEnd?_eq_some_iff.2 ⟨hne, rfl⟩
      exact ⟨_, hmodule, by simp [hcut]⟩

theorem StateAt.ne_nil (h : StateAt stem file) : stem ≠ [] := by
  cases h <;> assumption

theorem stateOf?_of_stateAt (h : StateAt stem file) :
    stateOf? file = some (Bytes.replace stem slash (Bytes.ascii '.')) :=
  stateOf?_eq_some_iff.2 ⟨stem, h, rfl⟩

/-- A path with the ending of a state file holds the state of the path, or a directory is opened with it. -/
theorem stateAt_module (hne : stem ≠ []) : StateAt stem (stem ++ ".sls") ∨
    ∃ above, stem = above ++ "/init" ∧ StateAt above (stem ++ ".sls") := by
  by_cases h : ∃ above : Bytes, above ≠ [] ∧ stem = above ++ "/init"
  · obtain ⟨above, habove, rfl⟩ := h
    exact .inr ⟨above, rfl, append_init above ▸ .init habove⟩
  · exact .inl (.module hne fun above habove heq => h ⟨above, habove, heq⟩)

/-- A file whose only dot is that of its ending holds the state of a path without dots. -/
theorem StateAt.dotless (h : StateAt stem file) (hfile : file = above ++ ".sls")
    (hdot : Bytes.ascii '.' ∉ above) : Bytes.ascii '.' ∉ stem := by
  cases h with
  | module => rwa [List.append_cancel_right hfile]
  | init =>
    rw [← append_init] at hfile
    rw [← List.append_cancel_right hfile] at hdot
    exact fun hmem => hdot (List.mem_append_left _ hmem)

/-! ## Finding a state -/

theorem firstState_of_stored (hcache : c.cacheFile candidate env w = (.ok dest, w')) (hne : dest ≠ [])
    (rest : List Bytes) :
    c.firstState env (candidate :: rest) w = (.ok (some ⟨candidate, dest⟩), w') := by
  rw [firstState, Action.bind_ok hcache]
  cases dest with
  | nil => exact absurd rfl hne
  | cons b dest => rfl

theorem firstState_of_lacking (hcache : c.cacheFile candidate env w = (.ok [], w'))
    (rest : List Bytes) : c.firstState env (candidate :: rest) w = c.firstState env rest w' := by
  rw [firstState, Action.bind_ok hcache]

/-- The paths that are tried for the name of a path without dots. -/
theorem stateCandidates_eq (h : Bytes.ascii '.' ∉ stem) :
    stateCandidates (Bytes.replace stem slash (Bytes.ascii '.')) =
      [VirtualPath.mark ++ (stem ++ ".sls"), VirtualPath.mark ++ (stem ++ "/init.sls")] := by
  rw [stateCandidates, Bytes.replace_replace h]
  simp only [List.append_assoc]

/-- A state is found under one of the paths that are tried. -/
theorem source_of_firstState {candidates : List Bytes} {state : StateFile}
    (h : c.firstState env candidates w = (.ok (some state), w')) : state.source ∈ candidates := by
  induction candidates generalizing w with
  | nil => cases h
  | cons candidate rest ih =>
    obtain ⟨dest, w₁, -, hrest⟩ := Action.exists_of_bind_ok h
    cases dest with
    | nil => exact List.mem_cons_of_mem candidate (ih hrest)
    | cons b dest =>
      cases hrest
      exact List.mem_cons_self

/-- A state that is found in a file listed under its name is that of a path without dots. -/
theorem dotless_of_getState
    (h : c.getState n env w = (.ok (some ⟨VirtualPath.mark ++ file, dest⟩), w'))
    (hstate : stateOf? file = some n) : ∃ stem, StateAt stem file ∧ Bytes.ascii '.' ∉ stem ∧
      n = Bytes.replace stem slash (Bytes.ascii '.') := by
  obtain ⟨stem, hat, hname⟩ := stateOf?_eq_some_iff.1 hstate
  refine ⟨stem, hat, ?_, hname⟩
  have hpath : Bytes.ascii '.' ∉ Bytes.replace n (Bytes.ascii '.') slash :=
    Bytes.not_mem_replace (by decide) n
  have hsource := source_of_firstState h
  rw [stateCandidates] at hsource
  simp only [List.append_assoc, List.mem_cons, List.append_cancel_left_eq, List.not_mem_nil,
    or_false] at hsource
  obtain hmodule | hinit := hsource
  · exact hat.dotless hmodule hpath
  · refine hat.dotless (hinit.trans (append_init _).symm) ?_
    rw [List.mem_append, not_or]
    exact ⟨hpath, by decide⟩

section

variable (hstocks : c.source.Stocks env files I)
include hstocks

theorem exists_cacheFile_of_mem (hw : I w) (hfile : file ∈ files) : ∃ dest w',
    c.cacheFile (VirtualPath.mark ++ file) env w = (.ok dest, w') ∧ dest ≠ [] ∧ I w' := by
  obtain ⟨place, w', hget, hne, hw'⟩ := hstocks.serves hw hfile
  refine ⟨place.text, w', ?_, hne, hw'⟩
  rw [cacheFile_apply, getFile, hget]
  rfl

theorem exists_cacheFile_of_not_mem (hw : I w) (hfile : file ∉ files) (hnormal : Normalised ⟨file⟩)
    (hlike : ∃ g ∈ files, g.head? = file.head?) : ∃ w',
    c.cacheFile (VirtualPath.mark ++ file) env w = (.ok [], w') ∧ I w' := by
  obtain ⟨w', hget, hw'⟩ := hstocks.lacks hw hfile hnormal hlike
  refine ⟨w', ?_, hw'⟩
  rw [cacheFile_apply, getFile, hget]
  rfl

theorem exists_listStates (hw : I w) : ∃ states w', c.listStates env w = (.ok states, w') ∧ I w' ∧
    ∀ n, n ∈ states ↔ ∃ f ∈ files, stateOf? f = some n := by
  obtain ⟨listing, w', hlists, hmem, hw'⟩ := hstocks.lists hw
  refine ⟨listing.filterMap stateOf?, w', Action.bind_ok hlists, hw', fun n => ?_⟩
  simp only [List.mem_filterMap, hmem]

/-- A state whose path has no dots is found, under one of the two paths that are tried. -/
theorem exists_getState (hnormal : ∀ f ∈ files, Normalised ⟨f⟩) (hw : I w) (hfile : file ∈ files)
    (hat : StateAt stem file) (hdot : Bytes.ascii '.' ∉ stem) : ∃ q dest w',
    c.getState (Bytes.replace stem slash (Bytes.ascii '.')) env w =
      (.ok (some ⟨VirtualPath.mark ++ q, dest⟩), w') ∧ dest ≠ [] ∧ I w' ∧ q ∈ files ∧
      (q = stem ++ ".sls" ∨ q = stem ++ "/init.sls") := by
  rw [getState, stateCandidates_eq hdot]
  by_cases hmodule : stem ++ ".sls" ∈ files
  · obtain ⟨dest, w', hcache, hne, hw'⟩ := exists_cacheFile_of_mem hstocks hw hmodule
    exact ⟨_, dest, w', firstState_of_stored hcache hne _, hne, hw', hmodule, .inl rfl⟩
  · cases hat with
    | module => exact absurd hfile hmodule
    | init hne =>
      have hlike : (stem ++ ("/init.sls" : Bytes)).head? = (stem ++ (".sls" : Bytes)).head? := by
        rw [List.head?_append_of_ne_nil _ hne, List.head?_append_of_ne_nil _ hne]
      have hinit : Normalised ⟨stem ++ slash :: "init.sls"⟩ := hnormal _ hfile
      have hcandidate : Normalised ⟨stem ++ ".sls"⟩ :=
        hinit.append_suffix (by decide) (by decide) (by decide)
      obtain ⟨w₁, hlacking, hw₁⟩ :=
        exists_cacheFile_of_not_mem hstocks hw hmodule hcandidate ⟨_, hfile, hlike⟩
      obtain ⟨dest, w', hcache, hdest, hw'⟩ := exists_cacheFile_of_mem hstocks hw₁ hfile
      refine ⟨_, dest, w', ?_, hdest, hw', hfile, .inr rfl⟩
      rw [firstState_of_lacking hlacking]
      exact firstState_of_stored hcache hdest []

/-- Over a source with a stock of normalised paths, a listed state whose file has a path without dots is
found under its name, whatever was asked for before: in a listed file, of which the listing makes that very
name. The one exception are names `m.init`: where the file `m/init.sls` of the state `m` is listed, that
file is found. No other state is found in a file of which the listing makes its name. -/
theorem states_resolved (hnormal : ∀ f ∈ files, Normalised ⟨f⟩) (hw : I w) : ∃ states w',
    c.listStates env w = (.ok states, w') ∧ I w' ∧
      (∀ n, n ∈ states ↔ ∃ f ∈ files, stateOf? f = some n) ∧
      (∀ n ∈ states,
        (∃ f ∈ files, ∃ stem, StateAt stem f ∧ Bytes.ascii '.' ∉ stem ∧
          n = Bytes.replace stem slash (Bytes.ascii '.')) →
        ∀ w₁, I w₁ → ∃ q dest w₂,
          c.getState n env w₁ = (.ok (some ⟨VirtualPath.mark ++ q, dest⟩), w₂) ∧ dest ≠ [] ∧ I w₂ ∧
            q ∈ files ∧ (stateOf? q = some n ∨ ∃ m, n = m ++ ".init" ∧
              q = Bytes.replace m (Bytes.ascii '.') slash ++ "/init.sls" ∧ stateOf? q = some m)) ∧
      ∀ n q dest w₁ w₂, c.getState n env w₁ = (.ok (some ⟨VirtualPath.mark ++ q, dest⟩), w₂) →
        stateOf? q = some n → ∃ stem, StateAt stem q ∧ Bytes.ascii '.' ∉ stem ∧
          n = Bytes.replace stem slash (Bytes.ascii '.') := by
  obtain ⟨states, w', hlist, hw', hmem⟩ := exists_listStates hstocks hw
  refine ⟨states, w', hlist, hw', hmem, ?_, fun _ _ _ _ _ => dotless_of_getState⟩
  rintro n - ⟨f, hf, stem, hat, hdot, rfl⟩ w₁ hw₁
  obtain ⟨q, dest, w₂, hget, hne, hw₂, hq, hshape⟩ := exists_getState hstocks hnormal hw₁ hf hat hdot
  refine ⟨q, dest, w₂, hget, hne, hw₂, hq, ?_⟩
  obtain rfl | rfl := hshape
  · obtain hmodule | ⟨above, rfl, hinit⟩ := stateAt_module hat.ne_nil
    · exact .inl (stateOf?_of_stateAt hmodule)
    · refine .inr ⟨_, Bytes.replace_append above "/init" slash (Bytes.ascii '.'), ?_,
        stateOf?_of_stateAt hinit⟩
      rw [Bytes.replace_replace fun hm => hdot (List.mem_append_left _ hm)]
      exact append_init above
  · exact .inl (stateOf?_of_stateAt (.init hat.ne_nil))

end

/-- State files, one with a dot of its own and two whose states are called alike. -/
def stateTree : FileTree :=
  ⟨[(["a.b.sls"], "x"), (["m", "init.sls"], "y"), (["m", "init", "init.sls"], "z")], []⟩

/-- A root that holds them. -/
def stateWorld : World Unit where
  disk := ⟨[(["srv"], .dir Disk.openMode), (["srv", "a.b.sls"], .file false "x"),
    (["srv", "m"], .dir Disk.openMode), (["srv", "m", "init.sls"], .file false "y"),
    (["srv", "m", "init"], .dir Disk.openMode), (["srv", "m", "init", "init.sls"], .file false "z")], []⟩
  beyond := ()

def stateRoots : LocalRoots Unit where
  settings := { Settings.defaults with fileRoots := .ofList [("base", ["srv"])] }
  digests := Digest.library
  yaml := Yaml.flow
  searchPath := none
  run := fun _ => pure []

theorem hosts_stateWorld :
    LocalRoots.Hosts stateRoots.settings "base" ⟨"srv"⟩ ["srv"] stateTree stateWorld.disk := by
  have htree : stateWorld.disk.treeAt ["srv"] = stateTree := by decide
  rw [← htree]
  exact LocalRoots.hosts_treeAt rfl
    ⟨by decide, by decide, Disk.isTree_of_entries (by decide), ⟨_, rfl⟩⟩ (by decide) ⟨_, rfl⟩
    (Disk.get?_ne_link_of_entries (by decide) _ _) (by decide)

theorem stocks_stateRoots : (stateRoots.courier MasterFiles.noWeb .empty).source.Stocks "base"
    stateTree.listedFiles fun w => w.disk = stateWorld.disk :=
  hosts_stateWorld.stocks (by decide)

theorem normalised_stateTree : ∀ f ∈ stateTree.listedFiles, Normalised ⟨f⟩ := by decide

/-- Of `m/init.sls` the listing makes `m`, under which the file is found. -/
theorem states_resolved_directory :
    ∃ states, ((stateRoots.courier MasterFiles.noWeb .empty).listStates "base" stateWorld).1 =
        .ok states ∧ Bytes.ofString "m" ∈ states ∧
      ∃ q dest, ((stateRoots.courier MasterFiles.noWeb .empty).getState "m" "base" stateWorld).1 =
        .ok (some ⟨VirtualPath.mark ++ q, dest⟩) ∧ q ∈ stateTree.listedFiles := by
  obtain ⟨states, w', hlist, -, hmem, hresolved, -⟩ :=
    states_resolved stocks_stateRoots normalised_stateTree (w := stateWorld) rfl
  have hstate : Bytes.ofString "m" ∈ states := (hmem _).2 ⟨"m/init.sls", by decide, by decide⟩
  have hat : StateAt "m" (Bytes.ofString "m" ++ "/init.sls") := .init (by decide)
  obtain ⟨q, dest, w₂, hget, -, -, hq, -⟩ := hresolved "m" hstate
    ⟨"m/init.sls", by decide, "m", hat, by decide, by decide⟩ stateWorld rfl
  exact ⟨states, congrArg Prod.fst hlist, hstate, q, dest, congrArg Prod.fst hget, hq⟩

/-- The name of a file with a dot leads to another path, and of two states that are called alike one is
found under both names. -/
theorem states_unresolved :
    (stateRoots.courier MasterFiles.noWeb .empty).source.Stocks "base" stateTree.listedFiles
        (fun w => w.disk = stateWorld.disk) ∧
      (∀ f ∈ stateTree.listedFiles, Normalised ⟨f⟩) ∧
      (∃ states, ((stateRoots.courier MasterFiles.noWeb .empty).listStates "base" stateWorld).1 =
          .ok states ∧ Bytes.ofString "a.b" ∈ states ∧ Bytes.ofString "m.init" ∈ states) ∧
      ((stateRoots.courier MasterFiles.noWeb .empty).getState "a.b" "base" stateWorld).1 = .ok none ∧
      ((stateRoots.courier MasterFiles.noWeb .empty).getState "m.init" "base" stateWorld).1 =
        .ok (some ⟨"salt://m/init.sls", "srv/m/init.sls"⟩) ∧
      stateOf? "m/init.sls" = some (Bytes.ofString "m") := by
  obtain ⟨states, w', hlist, -, hmem⟩ := exists_listStates stocks_stateRoots (w := stateWorld) rfl
  have hdotted : Bytes.ofString "a.b" ∈ states := (hmem _).2 ⟨"a.b.sls", by decide, by decide⟩
  have hinit : Bytes.ofString "m.init" ∈ states := (hmem _).2 ⟨"m/init/init.sls", by decide, by decide⟩
  exact ⟨stocks_stateRoots, normalised_stateTree, ⟨states, congrArg Prod.fst hlist, hdotted, hinit⟩, rfl,
    rfl, by decide⟩

end Courier

end FileCourier
