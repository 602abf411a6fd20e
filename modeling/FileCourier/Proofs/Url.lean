import FileCourier.WebFetch
import Mathlib.Data.List.TakeWhile

/-!
# Addresses, taken apart and put together

An address is taken apart by a scan per part: the scheme at the first `://`, the authority at the first
byte that ends one, the credentials at the last `@`, the fragment at the first `#` and the query at the
first `?`. Whatever the text, the parts that come out are separated by those bytes again (`Url.Parted`), so
an address put together without its credentials is taken apart into the same parts
(`Url.ofHierarchy_spell`, `Url.parse_withoutCredentials`). What stands before an `@` in the authority
changes the credentials and no other part (`Url.ofHierarchy_append_at`).
-/

namespace FileCourier

/-! ## The first occurrence of a text -/

namespace Bytes

variable {c sep : UInt8} {pat s before after : Bytes}

/-- A text that begins with a byte not met before is found where it first stands. -/
theorem breakAt?_append (h : c ∉ before) (pat after : Bytes) :
    breakAt? (c :: pat) (before ++ (c :: pat ++ after)) = some (before, after) := by
  induction before with
  | nil =>
    have hpre : (c :: pat).isPrefixOf (c :: (pat ++ after)) = true :=
      List.isPrefixOf_iff_prefix.2 (List.prefix_append (c :: pat) after)
    have hdrop : (c :: (pat ++ after)).drop (c :: pat).length = after :=
      List.drop_append_length
    rw [List.nil_append, List.cons_append, breakAt?, if_pos hpre, hdrop]
  | cons b r ih =>
    have hne : c ≠ b := fun heq => h (heq ▸ List.mem_cons_self)
    have hno : ¬(c :: pat).isPrefixOf (b :: (r ++ (c :: pat ++ after))) = true := fun hpre =>
      hne (List.cons_prefix_cons.1 (List.isPrefixOf_iff_prefix.1 hpre)).1
    rw [List.cons_append, breakAt?, if_neg hno, ih fun hm => h (List.mem_cons_of_mem b hm)]
    rfl

theorem eq_append_of_breakAt? (h : breakAt? pat s = some (before, after)) :
    s = before ++ pat ++ after := by
  induction s generalizing before with
  | nil =>
    rw [breakAt?] at h
    split at h
    · rename_i hnil
      cases h
      rw [List.isEmpty_iff.1 hnil]
      rfl
    · cases h
  | cons b r ih =>
    rw [breakAt?] at h
    split at h
    · rename_i hpre
      obtain ⟨t, ht⟩ := List.isPrefixOf_iff_prefix.1 hpre
      rw [← ht, List.drop_left] at h
      cases h
      exact ht.symm
    · obtain ⟨⟨before', after'⟩, hr, heq⟩ := Option.map_eq_some_iff.1 h
      cases heq
      rw [ih hr]
      rfl

/-- A byte is not found only where it does not stand. -/
theorem breakAt?_singleton_eq_none : breakAt? [sep] s = none ↔ sep ∉ s := by
  refine ⟨fun h hm => ?_, fun h => Option.eq_none_iff_forall_ne_some.2 fun parts hparts => ?_⟩
  · obtain ⟨before, after, rfl, hbefore⟩ := List.eq_append_cons_of_mem hm
    have hfound := breakAt?_append hbefore [] after
    rw [List.cons_append, List.nil_append, h] at hfound
    cases hfound
  · obtain ⟨before, after⟩ := parts
    rw [eq_append_of_breakAt? hparts] at h
    exact h (List.mem_append_left _ (List.mem_append_right _ List.mem_cons_self))

/-- The last occurrence of a byte in a text that goes on behind one is found in what follows. -/
theorem breakAtLast?_append_cons (before after : Bytes) :
    breakAtLast? sep (before ++ sep :: after) =
      some (match breakAtLast? sep after with
        | some (between, last) => (before ++ sep :: between, last)
        | none => (before, after)) := by
  induction before with
  | nil =>
    rw [List.nil_append, breakAtLast?]
    cases breakAtLast? sep after with
    | none => exact if_pos rfl
    | some parts => rfl
  | cons b r ih =>
    rw [List.cons_append, breakAtLast?, ih]
    cases breakAtLast? sep after with
    | none => rfl
    | some parts => rfl

theorem breakAtLast?_of_not_mem (h : sep ∉ s) : breakAtLast? sep s = none :=
  Option.eq_none_iff_forall_ne_some.2 fun _ hparts =>
    h ((eq_append_of_breakAtLast? hparts).1 ▸ List.mem_append_right _ List.mem_cons_self)

end Bytes

namespace Url

variable {sep c : UInt8} {s scheme rest text userinfo before after : Bytes} {url : Url}

/-! ## Cutting at a byte -/

theorem cut_of_not_mem (h : sep ∉ s) : cut sep s = (s, none) := by
  rw [cut, Bytes.breakAt?_singleton_eq_none.2 h]

theorem cut_append (h : sep ∉ before) (after : Bytes) :
    cut sep (before ++ sep :: after) = (before, some after) := by
  have hfound := Bytes.breakAt?_append h [] after
  rw [List.cons_append, List.nil_append] at hfound
  rw [cut, hfound]

/-- The two ways a text is cut. -/
theorem cut_cases (sep : UInt8) (s : Bytes) : sep ∉ s ∧ cut sep s = (s, none) ∨
    ∃ before after, sep ∉ before ∧ s = before ++ sep :: after ∧ cut sep s = (before, some after) := by
  by_cases hm : sep ∈ s
  · obtain ⟨before, after, rfl, hbefore⟩ := List.eq_append_cons_of_mem hm
    exact .inr ⟨before, after, hbefore, rfl, cut_append hbefore after⟩
  · exact .inl ⟨hm, cut_of_not_mem hm⟩

theorem not_mem_cut (sep : UInt8) (s : Bytes) : sep ∉ (cut sep s).1 := by
  obtain ⟨hno, hcut⟩ | ⟨before, after, hbefore, -, hcut⟩ := cut_cases sep s
  · rwa [hcut]
  · rwa [hcut]

theorem isPrefix_cut (sep : UInt8) (s : Bytes) : (cut sep s).1 <+: s := by
  obtain ⟨-, hcut⟩ | ⟨before, after, -, rfl, hcut⟩ := cut_cases sep s
  · exact (congrArg Prod.fst hcut : (cut sep s).1 = s) ▸ List.prefix_rfl
  · rw [hcut]
    exact List.prefix_append before (sep :: after)

theorem isSuffix_cut (sep : UInt8) (s : Bytes) : ((cut sep s).2.getD []) <:+ s := by
  obtain ⟨-, hcut⟩ | ⟨before, after, -, rfl, hcut⟩ := cut_cases sep s
  · rw [hcut]
    exact List.nil_suffix
  · rw [hcut]
    exact (List.suffix_cons sep after).trans (List.suffix_append before (sep :: after))

/-- A part behind the byte that introduces it; an empty part is left out with its byte. -/
def behind (sep : UInt8) (part : Bytes) : Bytes := if part.isEmpty then [] else sep :: part

theorem mem_behind (h : c ∈ behind sep after) : c = sep ∨ c ∈ after := by
  rw [behind] at h
  split at h
  · cases h
  · exact List.mem_cons.1 h

/-- A part put behind its byte is cut off again. -/
theorem cut_behind (h : sep ∉ before) (after : Bytes) :
    (cut sep (before ++ behind sep after)).1 = before ∧
      (cut sep (before ++ behind sep after)).2.getD [] = after := by
  cases after with
  | nil =>
    have hcut : cut sep (before ++ behind sep []) = (before, none) := by
      rw [behind, if_pos (by rfl), List.append_nil]
      exact cut_of_not_mem h
    exact ⟨congrArg Prod.fst hcut, by rw [hcut]; rfl⟩
  | cons b r =>
    have hcut : cut sep (before ++ behind sep (b :: r)) = (before, some (b :: r)) := cut_append h (b :: r)
    exact ⟨congrArg Prod.fst hcut, by rw [hcut]; rfl⟩

/-! ## The parts of a hierarchy -/

theorem endsAuthority_iff : endsAuthority c = true ↔
    c = Bytes.ascii '/' ∨ c = Bytes.ascii '?' ∨ c = Bytes.ascii '#' := by
  simp [endsAuthority, or_assoc]

/-- Parts that the bytes between them keep apart. -/
structure Parted (url : Url) : Prop where
  host_endless : ∀ c ∈ url.host, endsAuthority c = false
  host_at : Bytes.ascii '@' ∉ url.host
  path_slash : ∀ c ∈ url.path.head?, c = Bytes.ascii '/'
  path_query : Bytes.ascii '?' ∉ url.path
  path_fragment : Bytes.ascii '#' ∉ url.path
  query_fragment : Bytes.ascii '#' ∉ url.query

/-- A host stands at the end of an authority, and no `@` is in it. -/
theorem splitAuthority_suffix (authority : Bytes) :
    (splitAuthority authority).2 <:+ authority ∧ Bytes.ascii '@' ∉ (splitAuthority authority).2 := by
  rw [splitAuthority]
  cases hbreak : Bytes.breakAtLast? (Bytes.ascii '@') authority with
  | none => exact ⟨List.suffix_refl authority, Bytes.breakAtLast?_eq_none hbreak⟩
  | some parts =>
    obtain ⟨userinfo, host⟩ := parts
    obtain ⟨rfl, hno⟩ := Bytes.eq_append_of_breakAtLast? hbreak
    exact ⟨(List.suffix_cons _ host).trans (List.suffix_append userinfo _), hno⟩

/-- An `@`, and nothing else, makes credentials. -/
theorem splitAuthority_credentials (authority : Bytes) :
    (splitAuthority authority).1 = none ↔ Bytes.ascii '@' ∉ authority := by
  rw [splitAuthority]
  cases hbreak : Bytes.breakAtLast? (Bytes.ascii '@') authority with
  | none => exact iff_of_true rfl (Bytes.breakAtLast?_eq_none hbreak)
  | some parts =>
    have hmem : Bytes.ascii '@' ∈ authority := by
      rw [(Bytes.eq_append_of_breakAtLast? hbreak).1]
      exact List.mem_append_right _ List.mem_cons_self
    exact iff_of_false (by simp) (not_not_intro hmem)

theorem splitAuthority_of_not_mem (h : Bytes.ascii '@' ∉ s) : splitAuthority s = (none, s) := by
  rw [splitAuthority, Bytes.breakAtLast?_of_not_mem h]

/-- What stands before an `@` is no part of the host. -/
theorem splitAuthority_append_at (userinfo authority : Bytes) :
    (splitAuthority (userinfo ++ Bytes.ascii '@' :: authority)).2 = (splitAuthority authority).2 := by
  rw [splitAuthority, splitAuthority, Bytes.breakAtLast?_append_cons]
  cases Bytes.breakAtLast? (Bytes.ascii '@') authority with
  | none => rfl
  | some parts => rfl

/-- What is read of any text is parted. -/
theorem parted_ofHierarchy (scheme rest : Bytes) : Parted (ofHierarchy scheme rest) := by
  have hhost := splitAuthority_suffix (rest.takeWhile fun c => !endsAuthority c)
  have hquery : Bytes.ascii '?' ∉ (ofHierarchy scheme rest).path := not_mem_cut _ _
  have hfragment : Bytes.ascii '#' ∉ (ofHierarchy scheme rest).path := fun hm =>
    not_mem_cut _ _ ((isPrefix_cut _ _).subset hm)
  refine ⟨fun c hc => ?_, hhost.2, fun c hc => ?_, hquery, hfragment,
    fun hm => not_mem_cut _ _ ((isSuffix_cut _ _).subset hm)⟩
  · have hends := List.mem_takeWhile_imp (p := fun c => !endsAuthority c) (hhost.1.subset hc)
    exact Bool.not_eq_true' _ ▸ hends
  · -- A path begins where the authority ends, and there neither query nor fragment begins.
    obtain ⟨r, hpath⟩ := List.head?_eq_some_iff.1 hc
    have hmem : c ∈ (ofHierarchy scheme rest).path := hpath ▸ List.mem_cons_self
    obtain ⟨t, ht⟩ : (ofHierarchy scheme rest).path <+: rest.dropWhile fun c => !endsAuthority c :=
      (isPrefix_cut _ _).trans (isPrefix_cut _ _)
    have hhead := List.head?_dropWhile_not (fun c => !endsAuthority c) rest
    rw [← ht, hpath] at hhead
    obtain hslash | hc | hc := endsAuthority_iff.1 (by simpa using hhead)
    · exact hslash
    · exact absurd (hc ▸ hmem) hquery
    · exact absurd (hc ▸ hmem) hfragment

/-- The text of the parts behind `scheme://`, without credentials. -/
def spell (url : Url) : Bytes :=
  url.host ++ (url.path ++ behind (Bytes.ascii '?') url.query ++ behind (Bytes.ascii '#') url.fragment)

/-- The scan for the end of an authority passes over what does not end one. -/
theorem authority_append (h : ∀ c ∈ before, endsAuthority c = false) (tail : Bytes) :
    ((before ++ tail).takeWhile fun c => !endsAuthority c) =
        before ++ tail.takeWhile (fun c => !endsAuthority c) ∧
      ((before ++ tail).dropWhile fun c => !endsAuthority c) =
        tail.dropWhile fun c => !endsAuthority c := by
  have hgoes : ∀ c ∈ before, (!endsAuthority c) = true := fun c hc => by rw [h c hc]; rfl
  exact ⟨List.takeWhile_append_of_pos hgoes, List.dropWhile_append_of_pos hgoes⟩

/-- It stops at once at what does. -/
theorem authority_tail {tail : Bytes} (h : ∀ c ∈ tail.head?, endsAuthority c = true) :
    (tail.takeWhile fun c => !endsAuthority c) = [] ∧
      (tail.dropWhile fun c => !endsAuthority c) = tail := by
  cases tail with
  | nil => exact ⟨rfl, rfl⟩
  | cons c r =>
    have hstop : ¬(!endsAuthority c) = true := by
      rw [h c rfl]
      exact Bool.false_ne_true
    exact ⟨List.takeWhile_cons_of_neg hstop, List.dropWhile_cons_of_neg hstop⟩

/-- Behind a parted host stands a byte that ends an authority, if anything. -/
theorem Parted.tail_endsAuthority (h : Parted url) :
    ∀ c ∈ (url.path ++ behind (Bytes.ascii '?') url.query ++
      behind (Bytes.ascii '#') url.fragment).head?, endsAuthority c = true := by
  intro c hc
  rw [endsAuthority_iff]
  cases hpath : url.path with
  | cons b r =>
    rw [hpath, List.cons_append, List.cons_append] at hc
    exact .inl (h.path_slash c (by rw [hpath]; exact hc))
  | nil =>
    rw [hpath, List.nil_append, behind, behind] at hc
    split at hc <;> split at hc <;> simp_all

/-- Parted parts are read as they are spelled. -/
theorem ofHierarchy_spell (h : Parted url) (scheme : Bytes) :
    ofHierarchy scheme url.spell = { url with scheme, credentials := none } := by
  obtain ⟨htake, hdrop⟩ := authority_append h.host_endless (url.path ++
    behind (Bytes.ascii '?') url.query ++ behind (Bytes.ascii '#') url.fragment)
  obtain ⟨hnone, htail⟩ := authority_tail h.tail_endsAuthority
  have hbody : Bytes.ascii '#' ∉ url.path ++ behind (Bytes.ascii '?') url.query := by
    rw [List.mem_append, not_or]
    exact ⟨h.path_fragment, fun hm =>
      (mem_behind hm).elim (by decide) h.query_fragment⟩
  obtain ⟨hcut, hfragment⟩ := cut_behind hbody url.fragment
  obtain ⟨hpath, hquery⟩ := cut_behind h.path_query url.query
  rw [ofHierarchy, spell]
  dsimp only
  rw [htake, hdrop, hnone, htail, List.append_nil, splitAuthority_of_not_mem h.host_at, hcut, hfragment,
    hpath, hquery]

/-- A text before an `@` in the authority changes the credentials only. -/
theorem ofHierarchy_append_at (h : ∀ c ∈ userinfo, endsAuthority c = false) (scheme rest : Bytes) :
    { ofHierarchy scheme (userinfo ++ Bytes.ascii '@' :: rest) with credentials := none } =
      { ofHierarchy scheme rest with credentials := none } := by
  have hbefore : ∀ c ∈ userinfo ++ [Bytes.ascii '@'], endsAuthority c = false := by
    rw [List.forall_mem_append, List.forall_mem_singleton]
    exact ⟨h, by decide⟩
  obtain ⟨htake, hdrop⟩ := authority_append hbefore rest
  rw [List.append_cons, ofHierarchy, ofHierarchy, htake, hdrop, List.append_assoc]
  dsimp only
  rw [List.singleton_append, splitAuthority_append_at]

theorem credentials_ofHierarchy (scheme rest : Bytes) : (ofHierarchy scheme rest).credentials = none ↔
    Bytes.ascii '@' ∉ rest.takeWhile fun c => !endsAuthority c :=
  splitAuthority_credentials _

/-! ## Schemes -/

/-- A byte that is not its own small letter is a letter and becomes one. -/
theorem lower_cases (c : UInt8) : Bytes.lower c = c ∨
    Bytes.isLetter c = true ∧ 97 ≤ Bytes.lower c ∧ Bytes.lower c ≤ 122 := by
  by_cases hc : (65 ≤ c && c ≤ 90) = true
  · refine .inr ⟨by rw [Bytes.isLetter, hc]; rfl, ?_⟩
    rw [Bytes.lower, if_pos hc]
    simp only [Bool.and_eq_true, decide_eq_true_eq, UInt8.le_iff_toNat_le, UInt8.toNat_add,
      UInt8.reduceToNat] at hc ⊢
    omega
  · exact .inl (if_neg hc)

theorem lower_lower (c : UInt8) : Bytes.lower (Bytes.lower c) = Bytes.lower c := by
  obtain hc | ⟨-, hc, -⟩ := lower_cases c
  · rw [hc, hc]
  · refine if_neg fun hcapital => ?_
    simp only [Bool.and_eq_true, decide_eq_true_eq, UInt8.le_iff_toNat_le, UInt8.reduceToNat] at hc hcapital
    omega

theorem isLetter_of_small (h : 97 ≤ c ∧ c ≤ 122) : Bytes.isLetter c = true := by
  rw [Bytes.isLetter, Bool.or_eq_true, Bool.and_eq_true, Bool.and_eq_true]
  exact .inr ⟨decide_eq_true h.1, decide_eq_true h.2⟩

/-- A byte in a scheme behind the first. -/
def inScheme (c : UInt8) : Bool :=
  Bytes.isLetter c || Bytes.isDigit c || c == Bytes.ascii '+' || c == Bytes.ascii '-' ||
    c == Bytes.ascii '.'

theorem validScheme_cons (c : UInt8) (r : Bytes) :
    validScheme (c :: r) = (Bytes.isLetter c && r.all inScheme) := rfl

theorem isLetter_lower (c : UInt8) : Bytes.isLetter (Bytes.lower c) = Bytes.isLetter c := by
  obtain hc | ⟨hletter, hsmall⟩ := lower_cases c
  · rw [hc]
  · rw [hletter, isLetter_of_small hsmall]

theorem inScheme_lower (c : UInt8) : inScheme (Bytes.lower c) = inScheme c := by
  obtain hc | ⟨hletter, hsmall⟩ := lower_cases c
  · rw [hc]
  · rw [inScheme, inScheme, hletter, isLetter_of_small hsmall]
    rfl

/-- The letter case of a scheme does not matter. -/
theorem validScheme_map_lower (scheme : Bytes) :
    validScheme (scheme.map Bytes.lower) = validScheme scheme := by
  cases scheme with
  | nil => rfl
  | cons c r =>
    have hcomp : inScheme ∘ Bytes.lower = inScheme := funext inScheme_lower
    rw [List.map_cons, validScheme_cons, validScheme_cons, isLetter_lower, List.all_map, hcomp]

theorem inScheme_of_mem (h : validScheme scheme = true) (hc : c ∈ scheme) : inScheme c = true := by
  cases scheme with
  | nil => cases hc
  | cons b r =>
    rw [validScheme_cons, Bool.and_eq_true, List.all_eq_true] at h
    obtain rfl | hc := List.mem_cons.1 hc
    · rw [inScheme, h.1]
      rfl
    · exact h.2 c hc

/-! ## Reading an address -/

/-- What follows a scheme and `://`. -/
theorem parse_of_scheme (h : validScheme scheme = true) (rest : Bytes) :
    parse (scheme ++ ("://" ++ rest : Bytes)) = ofHierarchy (scheme.map Bytes.lower) rest := by
  have hbreak : Bytes.breakAt? "://" (scheme ++ ("://" ++ rest : Bytes)) = some (scheme, rest) :=
    Bytes.breakAt?_append (fun hm => absurd (inScheme_of_mem h hm) (by decide)) "//" rest
  rw [parse, hbreak]
  exact if_pos h

/-- A text is all path, or a scheme stands in front. -/
theorem parse_cases (text : Bytes) : parse text = { path := text } ∨
    ∃ scheme rest, validScheme scheme = true ∧ text = scheme ++ ("://" ++ rest : Bytes) := by
  cases hbreak : Bytes.breakAt? "://" text with
  | none => exact .inl (by rw [parse, hbreak])
  | some parts =>
    obtain ⟨scheme, rest⟩ := parts
    by_cases hscheme : validScheme scheme = true
    · refine .inr ⟨scheme, rest, hscheme, ?_⟩
      rw [Bytes.eq_append_of_breakAt? hbreak, List.append_assoc]
    · exact .inl (by rw [parse, hbreak]; exact if_neg hscheme)

/-- Without its credentials an address is its scheme, `://` and its parts. -/
theorem withoutCredentials_ofHierarchy (h : validScheme scheme = true) (rest : Bytes) :
    (ofHierarchy scheme rest).withoutCredentials =
      scheme ++ ("://" ++ (ofHierarchy scheme rest).spell : Bytes) := by
  have hne : ¬scheme.isEmpty = true := by
    cases scheme with
    | nil => cases h
    | cons c r => exact Bool.false_ne_true
  rw [withoutCredentials, spell, behind, behind]
  simp only [← List.append_assoc]
  exact if_neg hne

/-- The text without credentials is that of the other parts. -/
theorem withoutCredentials_congr {plain : Url}
    (h : { url with credentials := none } = { plain with credentials := none }) :
    url.withoutCredentials = plain.withoutCredentials := by
  have htext : ∀ u : Url, u.withoutCredentials = { u with credentials := none }.withoutCredentials :=
    fun _ => rfl
  rw [htext url, htext plain, h]

/-- Without its credentials an address is read as what it is, less the credentials. -/
theorem parse_withoutCredentials (text : Bytes) :
    parse (parse text).withoutCredentials = { parse text with credentials := none } := by
  obtain hpath | ⟨scheme, rest, hscheme, rfl⟩ := parse_cases text
  · rw [hpath]
    exact hpath
  · have hvalid : validScheme (scheme.map Bytes.lower) = true :=
      (validScheme_map_lower scheme).trans hscheme
    have hlower : (scheme.map Bytes.lower).map Bytes.lower = scheme.map Bytes.lower := by
      rw [List.map_map]
      exact List.map_congr_left fun c _ => lower_lower c
    rw [parse_of_scheme hscheme, withoutCredentials_ofHierarchy hvalid, parse_of_scheme hvalid, hlower]
    exact ofHierarchy_spell (parted_ofHierarchy _ rest) _

/-- The beginning of an address carries no credentials when the address carries none. -/
theorem credentials_of_isPrefix (hpre : before <+: text) (h : (parse text).credentials = none) :
    (parse before).credentials = none := by
  obtain hpath | ⟨scheme, rest, hscheme, rfl⟩ := parse_cases before
  · rw [hpath]
  · obtain ⟨after, rfl⟩ := hpre
    rw [List.append_assoc, List.append_assoc, parse_of_scheme hscheme, credentials_ofHierarchy,
      List.takeWhile_append] at h
    rw [parse_of_scheme hscheme, credentials_ofHierarchy]
    intro hm
    split at h
    · exact h (List.mem_append_left _ (List.takeWhile_subset _ hm))
    · exact h hm

/-! ## What is asked for -/

/-- No part of an address holds a byte that is not in its text. -/
theorem mem_spell_ofHierarchy (h : c ∈ (ofHierarchy scheme rest).spell) :
    c = Bytes.ascii '?' ∨ c = Bytes.ascii '#' ∨ c ∈ rest := by
  have hauthority : ∀ b ∈ rest.takeWhile (fun b => !endsAuthority b), b ∈ rest :=
    fun b hb => List.takeWhile_subset _ hb
  have htail : ∀ b ∈ rest.dropWhile (fun b => !endsAuthority b), b ∈ rest :=
    fun b hb => List.dropWhile_subset _ hb
  rw [spell, List.mem_append, List.mem_append, List.mem_append] at h
  obtain hhost | (hpath | hquery) | hfragment := h
  · exact .inr (.inr (hauthority c ((splitAuthority_suffix _).1.subset hhost)))
  · exact .inr (.inr (htail c ((isPrefix_cut _ _).subset ((isPrefix_cut _ _).subset hpath))))
  · exact (mem_behind hquery).imp_right fun hquery =>
      .inr (htail c ((isPrefix_cut _ _).subset ((isSuffix_cut _ _).subset hquery)))
  · exact .inr ((mem_behind hfragment).imp_right fun hfragment =>
      htail c ((isSuffix_cut _ _).subset hfragment))

theorem zero_not_mem_withoutCredentials (h : 0 ∉ text) : 0 ∉ (parse text).withoutCredentials := by
  obtain hpath | ⟨scheme, rest, hscheme, rfl⟩ := parse_cases text
  · rwa [hpath]
  · have hvalid : validScheme (scheme.map Bytes.lower) = true :=
      (validScheme_map_lower scheme).trans hscheme
    rw [parse_of_scheme hscheme, withoutCredentials_ofHierarchy hvalid, List.mem_append,
      List.mem_append, not_or, not_or]
    rw [List.mem_append, List.mem_append, not_or, not_or] at h
    refine ⟨fun hm => absurd (inScheme_of_mem hvalid hm) (by decide), by decide, fun hm => ?_⟩
    obtain hc | hc | hc := mem_spell_ofHierarchy hm
    · exact absurd hc (by decide)
    · exact absurd hc (by decide)
    · exact h.2.2 hc

/-- Taking the credentials out of an address takes out nothing else. Whatever the text, the address
without credentials is read as the parts of the text less the credentials; what is asked for under it, a
text that ends before its first NUL, carries none and, but for a NUL, every other part; and with a scheme,
what stands before an `@` in the authority shows in none of this. -/
theorem withoutCredentials_faithful :
    (∀ text, parse (parse text).withoutCredentials = { parse text with credentials := none }) ∧
      (∀ text, (parse (WebFetch.requestOf (parse text)).url).credentials = none ∧
        (0 ∉ text → parse (WebFetch.requestOf (parse text)).url =
          { parse text with credentials := none })) ∧
      ∀ scheme userinfo rest, validScheme scheme = true →
        (∀ c ∈ userinfo, endsAuthority c = false) →
        (parse (scheme ++ "://" ++ userinfo ++ "@" ++ rest)).withoutCredentials =
            (parse (scheme ++ "://" ++ rest)).withoutCredentials ∧
          { parse (scheme ++ "://" ++ userinfo ++ "@" ++ rest) with credentials := none } =
            { parse (scheme ++ "://" ++ rest) with credentials := none } := by
  refine ⟨parse_withoutCredentials, fun text => ⟨?_, fun hzero => ?_⟩,
    fun scheme userinfo rest hscheme huserinfo => ?_⟩
  · have hnone : (parse (parse text).withoutCredentials).credentials = none := by
      rw [parse_withoutCredentials]
    exact credentials_of_isPrefix (List.takeWhile_prefix _) hnone
  · have hwhole : (WebFetch.requestOf (parse text)).url = (parse text).withoutCredentials :=
      List.takeWhile_eq_self_iff.2 fun c hc => bne_iff_ne.2 fun heq =>
        zero_not_mem_withoutCredentials hzero (heq ▸ hc)
    rw [hwhole, parse_withoutCredentials]
  · have hparts := ofHierarchy_append_at huserinfo (scheme.map Bytes.lower) rest
    have htext : scheme ++ "://" ++ userinfo ++ "@" ++ rest =
        scheme ++ ("://" ++ (userinfo ++ Bytes.ascii '@' :: rest) : Bytes) := by
      simp only [List.append_assoc]
      rfl
    rw [htext, List.append_assoc scheme, parse_of_scheme hscheme, parse_of_scheme hscheme]
    exact ⟨withoutCredentials_congr hparts, hparts⟩

/-- Several `@` and `:` stand before the host, and a `?` behind the `#`. -/
theorem withoutCredentials_faithful_https :
    validScheme "HTTPS" = true ∧ (∀ c ∈ ("a:b@c:d" : Bytes), endsAuthority c = false) ∧
      0 ∉ ("HTTPS://a:b@c:d@h:8443/p?x=1#f?g" : Bytes) ∧
      (parse "HTTPS://a:b@c:d@h:8443/p?x=1#f?g").credentials = some (Bytes.ofString "a", Bytes.ofString "b@c:d") ∧
      (parse "HTTPS://a:b@c:d@h:8443/p?x=1#f?g").withoutCredentials =
        (parse "HTTPS://h:8443/p?x=1#f?g").withoutCredentials ∧
      (parse (WebFetch.requestOf (parse "HTTPS://a:b@c:d@h:8443/p?x=1#f?g")).url).fragment = "f?g" := by
  have hscheme : validScheme "HTTPS" = true := by decide
  have hnone : (Bytes.ofString "a:b@c:d").any endsAuthority = false := by decide
  have huserinfo : ∀ c ∈ ("a:b@c:d" : Bytes), endsAuthority c = false := fun c hc => by
    simpa using List.any_eq_false.1 hnone c hc
  have hzero : 0 ∉ ("HTTPS://a:b@c:d@h:8443/p?x=1#f?g" : Bytes) := by decide
  obtain ⟨-, hrequest, huser⟩ := withoutCredentials_faithful
  refine ⟨hscheme, huserinfo, hzero, by decide,
    (huser "HTTPS" "a:b@c:d" "h:8443/p?x=1#f?g" hscheme huserinfo).1, ?_⟩
  rw [(hrequest _).2 hzero]
  decide

end Url

end FileCourier
