import FileCourier.Gzip
import FileCourier.Proofs.Gzip.Bits

/-!
# More input behind a member

Whatever reads from the front of an input gives the same when more bytes follow, and leaves those bytes
as well (`Steady`, `Skips`). So a member is read alike whatever stands behind it
(`readMember_append`), and what stands behind it is shorter than the whole (`length_lt_of_readMember`).
-/

namespace FileCourier.Gzip

variable {α β : Type} {b b' : Bits} {x : Bool} {g s r : Bytes}

/-- The input with more bytes behind it. -/
def Bits.extend (b : Bits) (g : Bytes) : Bits := ⟨b.pending, b.rest ++ g⟩

theorem Bits.size_extend (b : Bits) (g : Bytes) : (b.extend g).size = b.size + 8 * g.length := by
  simp only [Bits.size, Bits.extend, List.length_append]
  omega

theorem exists_of_bind_ok {f : Except Fault α} {k : α → Except Fault β} {y : β}
    (h : (f >>= k) = .ok y) : ∃ a, f = .ok a ∧ k a = .ok y := by
  cases f with
  | error e => cases h
  | ok a => exact ⟨a, rfl, h⟩

/-- More bytes behind the input are left where they are, and none appear. -/
structure Follows (b b' : Bits) (read : Bits → Bits → Prop) : Prop where
  rest_le : b'.rest.length ≤ b.rest.length
  extend : ∀ g, read (b.extend g) (b'.extend g)

namespace Deflate

/-- A reader that gives the same when more bytes follow. -/
def Steady (f : Reader α) : Prop :=
  ∀ b a b', f b = .ok (a, b') → Follows b b' fun c c' => f c = .ok (a, c')

theorem steady_pure (a : α) : Steady (pure a : Reader α) := by
  intro b c b' h
  cases h
  exact ⟨Nat.le_refl _, fun _ => rfl⟩

theorem steady_corrupt : Steady (corrupt : Reader α) := nofun

theorem bind_ok {f : Reader α} {k : α → Reader β} {a : α} (h : f b = .ok (a, b')) :
    (f >>= k) b = k a b' := by
  change (f b >>= fun p => k p.1 p.2) = k a b'
  rw [h]
  rfl

theorem exists_of_bind_ok {f : Reader α} {k : α → Reader β} {p : β × Bits}
    (h : (f >>= k) b = .ok p) : ∃ a b', f b = .ok (a, b') ∧ k a b' = .ok p := by
  change (f b >>= fun q => k q.1 q.2) = .ok p at h
  obtain ⟨⟨a, b'⟩, hf, hk⟩ := Gzip.exists_of_bind_ok h
  exact ⟨a, b', hf, hk⟩

theorem Steady.bind {f : Reader α} {k : α → Reader β} (hf : Steady f) (hk : ∀ a, Steady (k a)) :
    Steady (f >>= k) := by
  intro b y b'' h
  obtain ⟨a, b', hfirst, hrest⟩ := exists_of_bind_ok h
  have hf' := hf b a b' hfirst
  have hk' := hk a b' y b'' hrest
  refine ⟨Nat.le_trans hk'.rest_le hf'.rest_le, fun g => ?_⟩
  rw [bind_ok (hf'.extend g)]
  exact hk'.extend g

def readBit : Reader Bool := Bits.next

theorem steady_readBit : Steady readBit := by
  intro b x b' h
  rw [readBit, Bits.next.eq_def] at h
  split at h
  · cases h
    exact ⟨Nat.le_refl _, fun _ => rfl⟩
  · rename_i c rest
    split at h
    · cases h
    · rename_i heq
      cases h
      refine ⟨Nat.le_succ _, fun g => ?_⟩
      change Bits.next ⟨[], c :: (rest ++ g)⟩ = _
      rw [Bits.next, heq]
      rfl
  · cases h

theorem readNat_succ (n : Nat) :
    readNat (n + 1) = readBit >>= fun x => readNat n >>= fun v => pure (x.toNat + 2 * v) := rfl

theorem steady_readNat (n : Nat) : Steady (readNat n) := by
  induction n with
  | zero => exact steady_pure 0
  | succ n ih =>
    rw [readNat_succ]
    exact steady_readBit.bind fun x => ih.bind fun v => steady_pure _

theorem steady_decode (code : Code) : Steady (code.decode : Reader Nat) := by
  induction code with
  | leaf symbol => exact steady_pure symbol
  | gap => exact steady_corrupt
  | node zero one hzero hone =>
    have heq : (Code.node zero one).decode =
        (readBit >>= fun x => bif x then one.decode else zero.decode : Reader Nat) := by
      funext b
      rw [Code.decode]
      change _ = (b.next >>= fun p => (bif p.1 then one.decode else zero.decode) p.2)
      cases b.next with
      | error e => rfl
      | ok p =>
        obtain ⟨x, b'⟩ := p
        cases x <;> rfl
    rw [heq]
    refine steady_readBit.bind fun x => ?_
    cases x with
    | true => exact hone
    | false => exact hzero

theorem steady_readScaled (table : List (Nat × Nat)) (symbol : Nat) :
    Steady (readScaled table symbol) := by
  rw [readScaled]
  split
  · exact (steady_readNat _).bind fun v => steady_pure _
  · exact steady_corrupt

theorem steady_readRepetition (code : Code) (symbol : Nat) : Steady (readRepetition code symbol) :=
  (steady_readScaled _ _).bind fun _ => (steady_decode code).bind fun _ =>
    (steady_readScaled _ _).bind fun _ => steady_pure _

theorem steady_readTriples (n : Nat) : Steady (readTriples n) := by
  induction n with
  | zero => exact steady_pure []
  | succ n ih => exact (steady_readNat 3).bind fun _ => ih.bind fun _ => steady_pure _

theorem steady_readLengths (code : Code) (count fuel : Nat) (sofar : List Nat) :
    Steady (readLengths code count fuel sofar) := by
  induction fuel generalizing sofar with
  | zero => exact steady_corrupt
  | succ fuel ih =>
    rw [readLengths]
    split
    · exact steady_pure _
    refine (steady_decode code).bind fun symbol => ?_
    split
    · exact ih _
    rcases repeats symbol with ⟨least, extra⟩
    refine (steady_readNat extra).bind fun times => ?_
    cases (if symbol = 16 then sofar.head? else some 0) with
    | none => exact steady_corrupt
    | some last =>
      dsimp only
      split
      · exact steady_corrupt
      · exact ih _

theorem steady_readCodes : Steady readCodes := by
  rw [readCodes]
  refine (steady_readNat 5).bind fun literals => (steady_readNat 5).bind fun distances =>
    (steady_readNat 4).bind fun stated => ?_
  dsimp only
  split
  · exact steady_corrupt
  refine (steady_readTriples _).bind fun triples => ?_
  split
  · exact steady_corrupt
  refine (steady_readLengths _ _ _ _).bind fun lengths => ?_
  split
  · exact steady_corrupt
  · split
    · exact steady_pure _
    · exact steady_corrupt

theorem steady_readHead : Steady readHead :=
  (steady_readNat 1).bind fun _ => (steady_readNat 2).bind fun _ => steady_pure _

/-! ## Blocks -/

variable {out out' : Array UInt8} {code distanceCode : Code} {fuel fuel' kind : Nat} {last : Bool}

/-- Symbols are read alike when more bytes follow, and when more of them are allowed. -/
theorem readSymbols_extend (h : readSymbols code distanceCode fuel b out = .ok (out', b'))
    (hfuel : fuel ≤ fuel') :
    Follows b b' fun c c' => readSymbols code distanceCode fuel' c out = .ok (out', c') := by
  induction fuel generalizing fuel' b out with
  | zero => cases h
  | succ fuel ih =>
    obtain ⟨fuel', rfl⟩ := Nat.exists_eq_add_one.2 (Nat.zero_lt_of_lt hfuel)
    replace hfuel := Nat.le_of_succ_le_succ hfuel
    rw [readSymbols] at h
    simp only [readSymbols]
    cases hdecode : code.decode b with
    | error e => simp [hdecode] at h
    | ok p =>
      obtain ⟨symbol, b₁⟩ := p
      have hsymbol := steady_decode code b symbol b₁ hdecode
      rw [hdecode] at h
      dsimp only at h
      by_cases hliteral : symbol < 256
      · rw [if_pos hliteral] at h
        have hrest := ih h hfuel
        refine ⟨Nat.le_trans hrest.rest_le hsymbol.rest_le, fun g => ?_⟩
        rw [hsymbol.extend g]
        dsimp only
        rw [if_pos hliteral]
        exact hrest.extend g
      rw [if_neg hliteral] at h
      by_cases hend : symbol = 256
      · rw [if_pos hend] at h
        cases h
        refine ⟨hsymbol.rest_le, fun g => ?_⟩
        rw [hsymbol.extend g]
        dsimp only
        rw [if_neg hliteral, if_pos hend]
      rw [if_neg hend] at h
      cases hrepetition : readRepetition distanceCode symbol b₁ with
      | error e => simp [hrepetition] at h
      | ok q =>
        obtain ⟨⟨length, distance⟩, b₂⟩ := q
        have hpair := steady_readRepetition distanceCode symbol b₁ _ b₂ hrepetition
        rw [hrepetition] at h
        dsimp only at h
        by_cases hfar : out.size < distance
        · rw [if_pos hfar] at h
          cases h
        · rw [if_neg hfar] at h
          have hrest := ih h hfuel
          refine ⟨Nat.le_trans hrest.rest_le (Nat.le_trans hpair.rest_le hsymbol.rest_le),
            fun g => ?_⟩
          rw [hsymbol.extend g]
          dsimp only
          rw [if_neg hliteral, if_neg hend, hpair.extend g]
          dsimp only
          rw [if_neg hfar]
          exact hrest.extend g

theorem readStored_extend (h : readStored b out = .ok (out', b')) :
    Follows b b' fun c c' => readStored c out = .ok (out', c') := by
  rw [readStored] at h
  split at h
  · rename_i l₀ l₁ m₀ m₁ rest hrest
    dsimp only at h
    split at h
    · cases h
    split at h
    · cases h
    rename_i hinverse hlong
    cases h
    refine ⟨?_, fun g => ?_⟩
    · rw [hrest, Bits.ofBytes, List.length_drop]
      simp only [List.length_cons]
      omega
    · have hle := Nat.not_lt.1 hlong
      rw [readStored, Bits.extend, hrest]
      simp only [List.cons_append, List.length_append]
      rw [if_neg hinverse, if_neg (by omega), List.take_append_of_le_length hle,
        List.drop_append_of_le_length hle]
      rfl
  · cases h

theorem readBody_extend (h : readBody kind b out = .ok (out', b')) :
    Follows b b' fun c c' => readBody kind c out = .ok (out', c') := by
  have hsize (c : Bits) (g : Bytes) : c.size + 1 ≤ (c.extend g).size + 1 := by
    rw [Bits.size_extend]
    omega
  rw [readBody.eq_def] at h
  split at h
  · exact readStored_extend h
  · exact ⟨(readSymbols_extend h (Nat.le_refl _)).rest_le,
      fun g => (readSymbols_extend h (hsize b g)).extend g⟩
  · split at h
    · cases h
    · rename_i code distanceCode b₁ hcodes
      have hsteady := steady_readCodes b _ b₁ hcodes
      refine ⟨Nat.le_trans (readSymbols_extend h (Nat.le_refl _)).rest_le hsteady.rest_le,
        fun g => ?_⟩
      rw [readBody, hsteady.extend g]
      exact (readSymbols_extend h (hsize b₁ g)).extend g
  · cases h

theorem readBlock_extend (h : readBlock b out = .ok (last, out', b')) :
    Follows b b' fun c c' => readBlock c out = .ok (last, out', c') := by
  rw [readBlock] at h
  split at h
  · cases h
  · rename_i final kind b₁ hhead
    have hsteady := steady_readHead b _ b₁ hhead
    cases hbody : readBody kind b₁ out with
    | error e => simp [hbody, Except.map] at h
    | ok p =>
      rw [hbody] at h
      cases h
      have hblock := readBody_extend hbody
      refine ⟨Nat.le_trans hblock.rest_le hsteady.rest_le, fun g => ?_⟩
      rw [readBlock, hsteady.extend g]
      dsimp only
      rw [hblock.extend g]
      rfl

/-- Blocks are read alike when more bytes follow, and when more of them are allowed. -/
theorem readBlocks_append (h : readBlocks fuel b out = .ok (out', r)) (hfuel : fuel ≤ fuel')
    (g : Bytes) : r.length ≤ b.rest.length ∧
      readBlocks fuel' (b.extend g) out = .ok (out', r ++ g) := by
  induction fuel generalizing fuel' b out with
  | zero => cases h
  | succ fuel ih =>
    obtain ⟨fuel', rfl⟩ := Nat.exists_eq_add_one.2 (Nat.zero_lt_of_lt hfuel)
    rw [readBlocks] at h
    split at h
    · cases h
    · rename_i hblock
      cases h
      have hfollows := readBlock_extend hblock
      rw [readBlocks, hfollows.extend g]
      exact ⟨hfollows.rest_le, rfl⟩
    · rename_i hblock
      have hfollows := readBlock_extend hblock
      obtain ⟨hle, hrest⟩ := ih h (Nat.le_of_succ_le_succ hfuel)
      rw [readBlocks, hfollows.extend g]
      exact ⟨Nat.le_trans hle hfollows.rest_le, hrest⟩

theorem inflate_append (h : inflate s = .ok (out, r)) (g : Bytes) :
    r.length ≤ s.length ∧ inflate (s ++ g) = .ok (out, r ++ g) := by
  refine readBlocks_append (b := .ofBytes s) h ?_ g
  rw [List.length_append]
  omega

end Deflate

/-! ## Headers and trailers -/

/-- A part of a header is skipped alike when more bytes follow. -/
def Skips (part : Bytes → Except Fault Bytes) : Prop :=
  ∀ s r, part s = .ok r → r.length ≤ s.length ∧ ∀ g, part (s ++ g) = .ok (r ++ g)

theorem skips_skip (n : Nat) : Skips (skip n) := by
  intro s r h
  rw [skip] at h
  split at h
  · cases h
  · rename_i hlong
    cases h
    refine ⟨by simp, fun g => ?_⟩
    rw [skip, List.length_append, if_neg (by omega),
      List.drop_append_of_le_length (Nat.not_lt.1 hlong)]

theorem skips_skipExtra : Skips skipExtra := by
  intro s r h
  rw [skipExtra.eq_def] at h
  split at h
  · rename_i a b rest
    obtain ⟨hle, hextend⟩ := skips_skip _ _ _ h
    refine ⟨?_, fun g => ?_⟩
    · simp only [List.length_cons]
      omega
    · exact hextend g
  · cases h

theorem skips_skipText : Skips skipText := by
  intro s r h
  rw [skipText] at h
  split at h
  · cases h
  · rename_i c rest hdrop
    cases h
    refine ⟨?_, fun g => ?_⟩
    · have hle := (List.dropWhile_suffix (p := (· != 0)) (l := s)).length_le
      rw [hdrop, List.length_cons] at hle
      omega
    · rw [skipText, List.dropWhile_append, hdrop]
      rfl

theorem skipIf_append {present : Bool} {part : Bytes → Except Fault Bytes} (hpart : Skips part)
    (h : skipIf present part s = .ok r) (g : Bytes) :
    r.length ≤ s.length ∧ skipIf present part (s ++ g) = .ok (r ++ g) := by
  cases present with
  | true =>
    obtain ⟨hle, hextend⟩ := hpart s r h
    exact ⟨hle, hextend g⟩
  | false =>
    cases h
    exact ⟨Nat.le_refl _, rfl⟩

/-- The checksum of a header is over the bytes before it. -/
theorem checkHeader_append {whole : Bytes} (h : checkHeader whole s = .ok r)
    (hs : s.length ≤ whole.length) (g : Bytes) :
    r.length ≤ s.length ∧ checkHeader (whole ++ g) (s ++ g) = .ok (r ++ g) := by
  rw [checkHeader.eq_def] at h
  split at h
  · rename_i a b rest
    split at h
    · rename_i hsum
      cases h
      refine ⟨Nat.le_add_right r.length 2, ?_⟩
      have hlength : (whole ++ g).length - (a :: b :: r ++ g).length =
          whole.length - (a :: b :: r).length := by
        simp only [List.length_append]
        omega
      have htake : (whole ++ g).take (whole.length - (a :: b :: r).length) =
          whole.take (whole.length - (a :: b :: r).length) :=
        List.take_append_of_le_length (Nat.sub_le _ _)
      rw [checkHeader.eq_def, hlength, htake]
      exact if_pos hsum
    · cases h
  · cases h

theorem skipOptions_append {whole : Bytes} {flags : UInt8} (h : skipOptions whole flags s = .ok r)
    (hs : s.length ≤ whole.length) (g : Bytes) :
    r.length ≤ s.length ∧ skipOptions (whole ++ g) flags (s ++ g) = .ok (r ++ g) := by
  rw [skipOptions] at h
  obtain ⟨s₁, h₁, h⟩ := exists_of_bind_ok h
  obtain ⟨s₂, h₂, h⟩ := exists_of_bind_ok h
  obtain ⟨s₃, h₃, h⟩ := exists_of_bind_ok h
  obtain ⟨hle₁, happend₁⟩ := skipIf_append skips_skipExtra h₁ g
  obtain ⟨hle₂, happend₂⟩ := skipIf_append skips_skipText h₂ g
  obtain ⟨hle₃, happend₃⟩ := skipIf_append skips_skipText h₃ g
  have hle : s₃.length ≤ s.length := by omega
  have hlast : r.length ≤ s₃.length ∧
      skipIf (flags &&& 2 != 0) (checkHeader (whole ++ g)) (s₃ ++ g) = .ok (r ++ g) := by
    cases hpresent : flags &&& 2 != 0 with
    | true =>
      rw [hpresent] at h
      exact checkHeader_append h (Nat.le_trans hle hs) g
    | false =>
      rw [hpresent] at h
      cases h
      exact ⟨Nat.le_refl _, rfl⟩
  refine ⟨Nat.le_trans hlast.1 hle, ?_⟩
  rw [skipOptions, happend₁]
  change (skipIf _ skipText (s₁ ++ g) >>= _) = _
  rw [happend₂]
  change (skipIf _ skipText (s₂ ++ g) >>= _) = _
  rw [happend₃]
  exact hlast.2

/-- A header is skipped alike when more bytes follow, and it is not empty. -/
theorem skipHeader_append (h : skipHeader s = .ok r) (g : Bytes) :
    r.length < s.length ∧ skipHeader (s ++ g) = .ok (r ++ g) := by
  rw [skipHeader.eq_def] at h
  split at h
  · rename_i magic₀ magic₁ rest
    split at h
    · cases h
    rename_i hmagic
    split at h
    · rename_i method flags rest'
      split at h
      · cases h
      rename_i hmethod
      obtain ⟨rest₁, hskip, hoptions⟩ := exists_of_bind_ok h
      obtain ⟨hle, hskip'⟩ := skips_skip 6 _ _ hskip
      obtain ⟨hle', hoptions'⟩ := skipOptions_append hoptions (by
        simp only [List.length_cons]
        omega) g
      refine ⟨?_, ?_⟩
      · simp only [List.length_cons]
        omega
      · rw [skipHeader.eq_def]
        dsimp only [List.cons_append]
        rw [if_neg hmagic, if_neg hmethod, hskip' g]
        exact hoptions'
    · cases h
  · cases h

theorem checkTrailer_append {out : Bytes} (h : checkTrailer out s = .ok r) (g : Bytes) :
    r.length ≤ s.length ∧ checkTrailer out (s ++ g) = .ok (r ++ g) := by
  rw [checkTrailer.eq_def] at h
  split at h
  · split at h
    · cases h
    rename_i hsum
    split at h
    · split at h
      · cases h
      · rename_i hlength
        cases h
        refine ⟨?_, ?_⟩
        · simp only [List.length_cons]
          omega
        · rw [checkTrailer.eq_def]
          dsimp only [List.cons_append]
          rw [if_neg hsum, if_neg hlength]
    · cases h
  · cases h

/-! ## Members -/

/-- A member is read alike whatever stands behind it, and that is shorter than the whole. -/
theorem readMember_append {out : Bytes} (h : readMember s = .ok (out, r)) (g : Bytes) :
    r.length < s.length ∧ readMember (s ++ g) = .ok (out, r ++ g) := by
  rw [readMember] at h
  split at h
  · cases h
  rename_i rest hheader
  obtain ⟨hlt, hheader'⟩ := skipHeader_append hheader g
  split at h
  · cases h
  rename_i data rest' hinflate
  obtain ⟨hle, hinflate'⟩ := Deflate.inflate_append hinflate g
  split at h
  · cases h
  rename_i rest'' htrailer
  cases h
  obtain ⟨hle', htrailer'⟩ := checkTrailer_append htrailer g
  refine ⟨by omega, ?_⟩
  rw [readMember, hheader']
  dsimp only
  rw [hinflate']
  dsimp only
  rw [htrailer']

theorem length_lt_of_readMember {out : Bytes} (h : readMember s = .ok (out, r)) :
    r.length < s.length :=
  (readMember_append h []).1

end FileCourier.Gzip
