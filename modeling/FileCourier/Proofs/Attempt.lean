import FileCourier.Attempt
import Mathlib.Algebra.Group.Nat.Defs

/-!
# What a try comes to

After the frame is written, how far a try has come depends only on the bytes that have arrived, not on
the pieces in which they came (`foldl_step_arrived`). So a try brings a reply just when its stream begins
with a size and as many bytes as it says (`reply_eq_ok_iff`), and a size above the limit is the one thing
that makes a reply malformed (`reply_eq_malformed_iff`).
-/

namespace FileCourier

namespace Progress

variable {s t rest : Bytes} {size : Nat}

theorem foldl_step_over (r : Except NetworkError Bytes) (l : List Happening) :
    l.foldl step (.over r) = .over r := by
  induction l with
  | nil => rfl
  | cons h l ih => exact ih

theorem step_readReply_arrived (size : Nat) (s t : Bytes) :
    (readReply size s).step (.arrived t) = readReply size (s ++ t) := by
  by_cases hshort : s.length < size
  · rw [readReply, if_pos hshort, step]
  · have hlong : ¬(s ++ t).length < size := by
      rw [List.length_append]
      omega
    rw [readReply, readReply, if_neg hshort, if_neg hlong,
      List.take_append_of_le_length (Nat.not_lt.1 hshort)]
    rfl

/-- Bytes that arrive later are read together with those that are there. -/
theorem step_readSize_arrived (s t : Bytes) : (readSize s).step (.arrived t) = readSize (s ++ t) := by
  by_cases hshort : s.length < sizeWidth
  · rw [readSize, if_pos hshort, step]
  · have hwidth := Nat.not_lt.1 hshort
    have hlong : ¬(s ++ t).length < sizeWidth := by
      rw [List.length_append]
      omega
    rw [readSize, readSize, if_neg hshort, if_neg hlong, List.take_append_of_le_length hwidth,
      List.drop_append_of_le_length hwidth]
    dsimp only
    split
    · rfl
    · exact step_readReply_arrived _ _ _

theorem foldl_step_arrived (pieces : List Bytes) (s : Bytes) :
    (pieces.map .arrived).foldl step (readSize s) = readSize (s ++ pieces.flatten) := by
  induction pieces generalizing s with
  | nil => simp
  | cons t pieces ih =>
    rw [List.map_cons, List.foldl_cons, step_readSize_arrived, ih, List.flatten_cons,
      List.append_assoc]

/-- Why there is no reply in a stream that is too short: the peer has closed the connection, or stays
silent. -/
def lack (silent : Bool) : NetworkError := if silent then .timeout else .connectionLost

/-- The end of a stream. -/
def ending (silent : Bool) : List Happening := if silent then [] else [.closed]

theorem result_ending_readingSize (s : Bytes) (silent : Bool) :
    ((ending silent).foldl step (.readingSize s)).result = .error (lack silent) := by
  cases silent <;> rfl

theorem result_ending_readingReply (size : Nat) (s : Bytes) (silent : Bool) :
    ((ending silent).foldl step (.readingReply size s)).result = .error (lack silent) := by
  cases silent <;> rfl

theorem result_ending_over (r : Except NetworkError Bytes) (silent : Bool) :
    ((ending silent).foldl step (.over r)).result = r := by
  rw [foldl_step_over, result]

end Progress

open Progress

namespace Attempt

variable {a : Attempt} {pieces : List Bytes} {stream reply : Bytes} {silent : Bool} {e : NetworkError}

/-- What is said in a dialogue is read as a whole. -/
theorem foldl_step_dialogue (pieces : List Bytes) (silent : Bool) :
    (dialogue pieces silent).foldl step .resolving =
      (ending silent).foldl step (readSize pieces.flatten) := by
  have harrived := foldl_step_arrived pieces []
  rw [List.nil_append] at harrived
  rw [← harrived, ← List.foldl_append]
  rfl

/-- In which pieces a reply arrives makes no difference. -/
theorem result_dialogue (pieces : List Bytes) (silent : Bool) :
    ((dialogue pieces silent).foldl step .resolving).result =
      (answers pieces.flatten silent).reply := by
  rw [Attempt.reply, happenings, foldl_step_dialogue, foldl_step_dialogue, List.flatten_singleton]

/-- How a try can end. -/
inductive Ends : Attempt → Except NetworkError Bytes → Prop
  | unresolved : Ends (.fails .resolving) (.error .connectionFailed)
  | unconnected : Ends (.fails .connecting) (.error .connectionFailed)
  | unwritten : Ends (.fails .writing) (.error .connectionLost)
  | hung {stage : Stage} : Ends (.hangs stage) (.error .timeout)
  | sizeless {stream : Bytes} {silent : Bool} : stream.length < sizeWidth →
      Ends (.answers stream silent) (.error (lack silent))
  | malformed {size rest : Bytes} {silent : Bool} : size.length = sizeWidth →
      maxReply < Bytes.ofBigEndian size →
      Ends (.answers (size ++ rest) silent) (.error .malformedReply)
  | short {size rest : Bytes} {silent : Bool} : size.length = sizeWidth →
      Bytes.ofBigEndian size ≤ maxReply → rest.length < Bytes.ofBigEndian size →
      Ends (.answers (size ++ rest) silent) (.error (lack silent))
  | replied {size reply rest : Bytes} {silent : Bool} : size.length = sizeWidth →
      Bytes.ofBigEndian size ≤ maxReply → Bytes.ofBigEndian size = reply.length →
      Ends (.answers (size ++ reply ++ rest) silent) (.ok reply)

theorem ends_answers (stream : Bytes) (silent : Bool) :
    Ends (.answers stream silent) (answers stream silent).reply := by
  rw [Attempt.reply, happenings, foldl_step_dialogue, List.flatten_singleton]
  by_cases hshort : stream.length < sizeWidth
  · rw [readSize, if_pos hshort, result_ending_readingSize]
    exact .sizeless hshort
  have hwidth : (stream.take sizeWidth).length = sizeWidth := by
    rw [List.length_take]
    omega
  rw [readSize, if_neg hshort]
  dsimp only
  split
  · rename_i hlarge
    rw [result_ending_over]
    have hends : Ends (.answers (_ ++ stream.drop sizeWidth) silent) _ := .malformed hwidth hlarge
    rwa [List.take_append_drop] at hends
  rename_i hsize
  rw [readReply]
  split
  · rename_i hrest
    rw [result_ending_readingReply]
    have hends : Ends (.answers _ silent) _ := .short hwidth (Nat.not_lt.1 hsize) hrest
    rwa [List.take_append_drop] at hends
  · rename_i hrest
    rw [result_ending_over]
    generalize hn : Bytes.ofBigEndian (stream.take sizeWidth) = n at hsize hrest
    have hlength : n = ((stream.drop sizeWidth).take n).length := by
      rw [List.length_take]
      omega
    have hends : Ends (.answers (_ ++ _ ++ (stream.drop sizeWidth).drop n) silent) _ :=
      .replied hwidth (hn ▸ Nat.not_lt.1 hsize) (hn.trans hlength)
    rwa [List.append_assoc, List.take_append_drop, List.take_append_drop] at hends

/-- Each try ends in one of these ways. -/
theorem ends_reply (a : Attempt) : Ends a a.reply := by
  cases a with
  | fails stage =>
    cases stage with
    | resolving => exact .unresolved
    | connecting => exact .unconnected
    | writing => exact .unwritten
  | hangs stage => cases stage <;> exact .hung
  | answers stream silent => exact ends_answers stream silent

theorem reply_eq_ok_iff :
    a.reply = .ok reply ↔ ∃ size rest silent, a = .answers (size ++ reply ++ rest) silent ∧
      size.length = 8 ∧ Bytes.ofBigEndian size ≤ 2 ^ 32 ∧ Bytes.ofBigEndian size = reply.length := by
  constructor
  · intro h
    have hends := ends_reply a
    rw [h] at hends
    cases hends with
    | replied hwidth hsize hlength => exact ⟨_, _, _, rfl, hwidth, hsize, hlength⟩
  · rintro ⟨size, rest, silent, rfl, hwidth, hsize, hlength⟩
    replace hwidth : size.length = sizeWidth := hwidth
    have hlong : ¬(size ++ (reply ++ rest)).length < sizeWidth := by
      rw [List.length_append, hwidth]
      exact Nat.not_lt.2 (Nat.le_add_right _ _)
    rw [Attempt.reply, happenings, foldl_step_dialogue, List.flatten_singleton, List.append_assoc,
      readSize, if_neg hlong, List.take_left' hwidth, List.drop_left' hwidth]
    dsimp only
    replace hsize : ¬maxReply < Bytes.ofBigEndian size := Nat.not_lt.2 hsize
    rw [if_neg hsize, readReply, hlength, if_neg (by simp), List.take_left,
      result_ending_over]

theorem reply_eq_malformed_iff :
    a.reply = .error .malformedReply ↔ ∃ size rest silent, a = .answers (size ++ rest) silent ∧
      size.length = 8 ∧ 2 ^ 32 < Bytes.ofBigEndian size := by
  constructor
  · intro h
    have hends := ends_reply a
    rw [h] at hends
    generalize hr : (Except.error .malformedReply : Except NetworkError Bytes) = r at hends
    cases hends with
    | malformed hwidth hlarge => exact ⟨_, _, _, rfl, hwidth, hlarge⟩
    | sizeless | short => cases ‹Bool› <;> cases hr
    | _ => cases hr
  · rintro ⟨size, rest, silent, rfl, hwidth, hlarge⟩
    replace hwidth : size.length = sizeWidth := hwidth
    have hlong : ¬(size ++ rest).length < sizeWidth := by
      rw [List.length_append, hwidth]
      exact Nat.not_lt.2 (Nat.le_add_right _ _)
    rw [Attempt.reply, happenings, foldl_step_dialogue, List.flatten_singleton, readSize,
      if_neg hlong, List.take_left' hwidth]
    dsimp only
    replace hlarge : maxReply < Bytes.ofBigEndian size := hlarge
    rw [if_pos hlarge, result_ending_over]

/-- No try fails with success. -/
theorem reply_ne_success (a : Attempt) : a.reply ≠ .error .success := by
  intro h
  have hends := ends_reply a
  rw [h] at hends
  generalize hr : (Except.error .success : Except NetworkError Bytes) = r at hends
  cases hends with
  | sizeless | short => cases ‹Bool› <;> cases hr
  | _ => cases hr

end Attempt

end FileCourier
