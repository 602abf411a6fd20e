import FileCourier.Proofs.Courier.Errands
import FileCourier.Proofs.Courier.Failing
import FileCourier.Proofs.LocalRoots.Fetching
import FileCourier.Proofs.Url

/-!
# Where an address is taken to

Two readings of a text decide where it is taken to: an address of the scheme `salt` goes to the source, and
the source takes what carries the mark `salt://`. They differ on the texts that carry the mark but for letter
case, and on these alone (`Url.isVirtual_eq_marked_iff`). Any other address is taken to the source under a
path that the source takes, or to the web, and no errand fails over the mark; an address that differs in
letter case only fails over it, whatever is stored (`Courier.addresses_directed`).
-/

namespace FileCourier

open FileCourier.Action FileCourier.Fault

variable {σ : Type} {text : Bytes} {e : Errand} {c : Courier σ} {source : Source σ} {w : World σ}

/-! ## Two readings of a text -/

namespace VirtualPath

theorem marked_iff : marked text = true ↔ ∃ rest, text = mark ++ rest := by
  constructor
  · intro h
    have hstrip : strip? text = some (text.drop mark.length) := if_pos h
    exact ⟨_, strip?_eq_some_iff.1 hstrip⟩
  · rintro ⟨rest, rfl⟩
    exact List.isPrefixOf_iff_prefix.2 (List.prefix_append mark rest)

theorem strip?_eq_none_iff : strip? text = none ↔ marked text = false := by
  rw [strip?]
  cases marked text <;> simp

/-- Carrying the mark but for letter case. -/
def Capitalised (text : Bytes) : Prop :=
  ∃ name rest : Bytes, text = name ++ ("://" ++ rest : Bytes) ∧ name.map Bytes.lower = "salt" ∧
    name ≠ "salt"

theorem Capitalised.marked_eq (h : Capitalised text) : marked text = false := by
  obtain ⟨name, rest, rfl, hlower, hne⟩ := h
  rw [Bool.eq_false_iff, Ne, marked_iff]
  rintro ⟨rest', heq⟩
  have hlength : name.length = (Bytes.ofString "salt").length := by
    rw [← hlower, List.length_map]
  have htext : name ++ ("://" ++ rest : Bytes) = Bytes.ofString "salt" ++ ("://" ++ rest' : Bytes) := heq
  exact hne (List.append_inj_left htext hlength)

end VirtualPath

open VirtualPath (Capitalised)

/-- An address is one of the master's when it carries the mark, whatever the letter case. -/
theorem Url.isVirtual_iff :
    (parse text).isVirtual = true ↔ VirtualPath.marked text = true ∨ Capitalised text := by
  constructor
  · intro h
    obtain hpath | ⟨name, rest, hname, rfl⟩ := parse_cases text
    · rw [hpath] at h
      cases h
    · rw [parse_of_scheme hname] at h
      have hlower : name.map Bytes.lower = "salt" := eq_of_beq h
      by_cases hsalt : name = "salt"
      · exact .inl (VirtualPath.marked_iff.2 ⟨rest, by rw [hsalt]; rfl⟩)
      · exact .inr ⟨name, rest, rfl, hlower, hsalt⟩
  · rintro (h | ⟨name, rest, rfl, hlower, -⟩)
    · obtain ⟨rest, rfl⟩ := VirtualPath.marked_iff.1 h
      exact isVirtual_marked rest
    · have hname : validScheme name = true := by
        rw [← validScheme_map_lower, hlower]
        decide
      rw [parse_of_scheme hname]
      exact beq_iff_eq.2 hlower

theorem Url.isVirtual_eq_marked_iff :
    (parse text).isVirtual = VirtualPath.marked text ↔ ¬Capitalised text := by
  constructor
  · intro h hcapital
    have hvirtual := isVirtual_iff.2 (.inr hcapital)
    rw [h, hcapital.marked_eq] at hvirtual
    cases hvirtual
  · intro h
    rw [Bool.eq_iff_iff, isVirtual_iff]
    exact or_iff_left h

/-- What is read as an address of the master's, in one way only, is taken by the source. -/
theorem VirtualPath.strip?_ne_none (hcase : ¬Capitalised text)
    (h : (Url.parse text).isVirtual = true) : strip? text ≠ none := by
  rw [Ne, strip?_eq_none_iff, ← Url.isVirtual_eq_marked_iff.2 hcase, h]
  exact nofun

/-! ## Errands by address -/

/-- The address that an errand is given. -/
def Errand.address? : Errand → Option Bytes
  | getUrl text _ _ _ | cacheFile text _ | getTemplate text _ _ _ _ _ => some text
  | _ => none

/-- A fault that is not that of a path without the mark. -/
def Fault.Directed (e : Fault) : Prop := ∀ path, e ≠ .unmarked path

theorem Fault.Usual.directed {e : Fault} (h : e.Usual) : e.Directed := by
  rintro path rfl
  exact h

namespace Courier

theorem getUrl_of_source (h : (Url.parse text).isVirtual = true → ∀ r, r.path = text →
      c.source.getFile r = source.getFile r) (dest : Bytes) (makeParents : Bool) (env : Bytes) :
    c.getUrl text dest makeParents env =
      { c with source := source }.getUrl text dest makeParents env := by
  rw [getUrl, getUrl]
  split
  · rw [getFile, h ‹_› _ rfl]
    rfl
  · rfl

/-- An errand by address needs the source only for an address of the master's, and then under that path
alone. -/
theorem perform_of_source (he : e.address? = some text) (h : (Url.parse text).isVirtual = true →
    ∀ r, r.path = text → c.source.getFile r = source.getFile r) :
    c.perform e = { c with source := source }.perform e := by
  have hurl := getUrl_of_source h
  cases e with
  | getUrl => cases he; rw [perform, perform, hurl]
  | cacheFile => cases he; rw [perform, perform, cacheFile, cacheFile, hurl]
  | getTemplate =>
    cases he
    rw [perform, perform, getTemplate, getTemplate, cacheFile, cacheFile, hurl]
    rfl
  | _ => cases he

theorem perform_failsOnly {P : Fault → Prop} (he : e.address? = some text)
    (husual : ∀ e : Fault, e.Usual → P e) (hweb : ∀ request, (c.web request).FailsOnly P)
    (hfile : ∀ r, r.path = text → (Url.parse text).isVirtual = true → (c.getFile r).FailsOnly P)
    (hrender : ∀ name source parameters, (c.engines.render name source parameters).FailsOnly P) :
    (c.perform e).FailsOnly P := by
  have hurl := failsOnly_getUrl husual hweb hfile
  cases e with
  | getUrl => cases he; exact (hurl _ _ _).map _
  | cacheFile => cases he; exact (hurl _ _ _).map _
  | getTemplate =>
    cases he
    exact (failsOnly_getTemplate husual hweb hfile hrender _ _ _ _ _).map _
  | _ => cases he

/-- What a source refuses under a path, an errand by that path does not bring. -/
theorem perform_of_refused {fault : Fault} (he : e.address? = some text)
    (hvirtual : (Url.parse text).isVirtual = true)
    (hrefused : ∀ r, r.path = text → c.getFile r w = (.error fault, w)) :
    c.perform e w = (.error fault, w) := by
  have hurl (dest : Bytes) (makeParents : Bool) (env : Bytes) :
      c.getUrl text dest makeParents env w = (.error fault, w) := by
    rw [getUrl, if_pos hvirtual]
    exact bind_error (hrefused _ rfl)
  cases e with
  | getUrl => cases he; exact bind_error (hurl _ _ _)
  | cacheFile => cases he; exact bind_error (hurl _ _ _)
  | getTemplate =>
    cases he
    refine bind_error ?_
    rw [getTemplate]
    exact bind_error (hurl _ _ _)
  | _ => cases he

end Courier

theorem LocalRoots.getFile_unmarked {s : Settings} {r : FileRequest}
    (h : VirtualPath.strip? r.path = none) :
    (getFile s r : Action (World σ) Fetched) w = (.error (.unmarked r.path), w) := by
  rw [getFile, resolve, h]
  rfl

/-- Engines that do not fail over a path without the mark. -/
def Engines.Directed (engines : Engines) : Prop :=
  ∀ name source parameters, (engines.render name source parameters).FailsOnly Fault.Directed

section

variable (he : e.address? = some text)
include he

/-- From local roots, an errand by an address that is read in one way does not fail over the mark. -/
theorem LocalRoots.perform_directed (l : LocalRoots σ) {web : Web σ} {engines : Engines}
    (hweb : ∀ request, (web request).FailsOnly Fault.Directed) (hengines : engines.Directed)
    (hcase : ¬Capitalised text) : ((l.courier web engines).perform e).FailsOnly Fault.Directed := by
  refine Courier.perform_failsOnly he (fun _ => Usual.directed) hweb (fun r hr hvirtual => ?_) hengines
  exact failsOnly_getFile fun hnone => absurd (hr ▸ hnone) (VirtualPath.strip?_ne_none hcase hvirtual)

/-- And so it is from a master. -/
theorem MasterFiles.perform_directed (m : MasterFiles σ) {web : Web σ} {engines : Engines}
    (hask : ∀ request, (m.ask request).FailsOnly Fault.Directed)
    (hweb : ∀ request, (web request).FailsOnly Fault.Directed) (hengines : engines.Directed)
    (hcase : ¬Capitalised text) : ((m.courier web engines).perform e).FailsOnly Fault.Directed := by
  refine Courier.perform_failsOnly he (fun _ => Usual.directed) hweb (fun r hr hvirtual => ?_) hengines
  exact m.failsOnly_getFile (fun request => (hask request).mono fun _ h _ => h)
    (fun _ => Usual.directed) fun hnone =>
      absurd (hr ▸ hnone) (VirtualPath.strip?_ne_none hcase hvirtual)

end

/-- The two readings of a text agree unless it carries the mark but for letter case. An errand by an address
on which they agree needs the source only under paths that the source takes, and not at all when the address
carries no mark; from local roots as from a master it never fails over a path without the mark. An errand by
an address on which they differ always does, and does nothing else. -/
theorem Courier.addresses_directed :
    (∀ text, (Url.parse text).isVirtual = VirtualPath.marked text ↔ ¬Capitalised text) ∧
    (∀ (e : Errand) text, e.address? = some text → ¬Capitalised text →
      (∀ (c : Courier σ) source,
        (∀ r, VirtualPath.strip? r.path ≠ none → c.source.getFile r = source.getFile r) →
          c.perform e = { c with source := source }.perform e) ∧
      (VirtualPath.marked text = false → ∀ (c : Courier σ) source,
        c.perform e = { c with source := source }.perform e) ∧
      ∀ (web : Web σ) (engines : Engines),
        (∀ request, (web request).FailsOnly Fault.Directed) → engines.Directed →
        (∀ (l : LocalRoots σ) w path,
          ((l.courier web engines).perform e w).1 ≠ .error (.unmarked path)) ∧
        ∀ m : MasterFiles σ, (∀ request, (m.ask request).FailsOnly Fault.Directed) → ∀ w path,
          ((m.courier web engines).perform e w).1 ≠ .error (.unmarked path)) ∧
    ∀ (e : Errand) text, e.address? = some text → Capitalised text →
      ∀ (web : Web σ) (engines : Engines) w,
        (∀ l : LocalRoots σ, (l.courier web engines).perform e w = (.error (.unmarked text), w)) ∧
        ∀ m : MasterFiles σ, (m.courier web engines).perform e w = (.error (.unmarked text), w) := by
  refine ⟨fun text => Url.isVirtual_eq_marked_iff, fun e text he hcase => ⟨?taken, ?foreign, ?never⟩,
    fun e text he hcase web engines w => ?_⟩
  case taken =>
    intro c source hagree
    exact perform_of_source he fun hvirtual r hr =>
      hagree r (hr ▸ VirtualPath.strip?_ne_none hcase hvirtual)
  case foreign =>
    intro hmark c source
    refine perform_of_source he fun hvirtual => ?_
    rw [Url.isVirtual_eq_marked_iff.2 hcase, hmark] at hvirtual
    cases hvirtual
  case never =>
    intro web engines hweb hengines
    exact ⟨fun l w path heq => l.perform_directed he hweb hengines hcase w _ heq path rfl,
      fun m hask w path heq => m.perform_directed he hask hweb hengines hcase w _ heq path rfl⟩
  have hvirtual := Url.isVirtual_iff.2 (.inr hcase)
  have hnone := VirtualPath.strip?_eq_none_iff.2 hcase.marked_eq
  refine ⟨fun l => perform_of_refused he hvirtual fun r hr => ?_,
    fun m => perform_of_refused he hvirtual fun r hr => ?_⟩
  · rw [← hr]
    exact LocalRoots.getFile_unmarked (hr ▸ hnone)
  · rw [← hr]
    exact m.getFile_unmarked w (hr ▸ hnone)

section

open MasterFiles (inPairs noWeb newCache)
open LocalRoots (overlapping twoRoots)

theorem directed_noWeb (request : WebRequest) :
    (noWeb request : Action Unit Transfer).FailsOnly Fault.Directed := failsOnly_throw fun _ => nofun

theorem Engines.directed_empty : Engines.Directed .empty := fun _ _ _ => failsOnly_pure _

/-- A file under the mark comes from the roots and from a master, and its address in capitals from
neither. -/
theorem Courier.addresses_directed_marked :
    ¬Capitalised "salt://d/f" ∧ Capitalised "SALT://d/f" ∧
      (∀ path, ((twoRoots.courier noWeb .empty).perform (.cacheFile "salt://d/f" "base") overlapping).1 ≠
        .error (.unmarked path)) ∧
      (∀ path, (((inPairs "abc" "f").courier noWeb .empty).perform (.cacheFile "salt://d/f" "base")
        newCache).1 ≠ .error (.unmarked path)) ∧
      (twoRoots.courier noWeb .empty).perform (.cacheFile "SALT://d/f" "base") overlapping =
        (.error (.unmarked "SALT://d/f"), overlapping) := by
  have hmarked : ¬Capitalised "salt://d/f" := Url.isVirtual_eq_marked_iff.1 (by decide)
  have hcapital : Capitalised "SALT://d/f" := ⟨"SALT", "d/f", by decide, by decide, by decide⟩
  have hask (request : Message) : ((inPairs "abc" "f").ask request).FailsOnly Fault.Directed := by
    intro s e heq
    rw [inPairs] at heq
    dsimp only at heq
    split at heq <;> cases heq
  obtain ⟨-, hdirected, hrefused⟩ := Courier.addresses_directed (σ := Unit)
  obtain ⟨-, -, hnever⟩ := hdirected (.cacheFile "salt://d/f" "base") _ rfl hmarked
  obtain ⟨hlocal, hremote⟩ := hnever noWeb .empty directed_noWeb Engines.directed_empty
  obtain ⟨hcapitals, -⟩ :=
    hrefused (.cacheFile "SALT://d/f" "base") _ rfl hcapital noWeb .empty overlapping
  exact ⟨hmarked, hcapital, hlocal twoRoots overlapping, hremote (inPairs "abc" "f") hask newCache,
    hcapitals twoRoots⟩

/-- An address in capitals is one of the master's, but the source does not take it, although it has the
file. -/
theorem Courier.capitals_misdirected :
    (Url.parse "SALT://d/f").isVirtual = true ∧ VirtualPath.marked "SALT://d/f" = false ∧
      ((twoRoots.courier noWeb .empty).getUrl "SALT://d/f" [] true "base" overlapping).1 =
        .error (.unmarked "SALT://d/f") ∧
      ((twoRoots.courier noWeb .empty).cacheFile "SALT://d/f" "base" overlapping).1 =
        .error (.unmarked "SALT://d/f") ∧
      ((twoRoots.courier noWeb .empty).getTemplate "SALT://d/f" [] "jinja" true "base" .empty
        overlapping).1 = .error (.unmarked "SALT://d/f") ∧
      ((twoRoots.courier noWeb .empty).cacheFile "salt://d/f" "base" overlapping).1 = .ok "one/d/f" :=
  ⟨by decide, by decide, rfl, rfl, rfl, rfl⟩

end

end FileCourier
