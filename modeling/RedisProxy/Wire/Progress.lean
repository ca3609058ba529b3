/-
  RedisProxy.Wire.Progress — a request call moves the reader forward only.

  Proved: between calls the reader stands at the input's start and a parser without a
  mode has its counters reset (`AtRest`); a call keeps that and does not lengthen the
  input, and a call on a parser without a mode that returns `OK` shortens it
  (`parseRequest_progress`). This bounds the rounds of the loops that call it.
-/

import RedisProxy.Wire.Inline

namespace RedisProxy.Wire

open Lib.Decimal

/-! ## The reader -/

namespace BufferReader

variable {r r' r'' : BufferReader}

/-- `r'` is `r` further on. -/
structure Onward (r r' : BufferReader) : Prop where
  buffer : r'.buffer = r.buffer
  offset : r.offset ≤ r'.offset

theorem Onward.refl (r : BufferReader) : Onward r r := ⟨rfl, Nat.le_refl _⟩

theorem Onward.trans (h : Onward r r') (h' : Onward r' r'') : Onward r r'' :=
  ⟨h'.buffer.trans h.buffer, Nat.le_trans h.offset h'.offset⟩

theorem take_onward (r : BufferReader) (dst : Bytes) (i : Nat) :
    Onward r (r.take dst i).2.2 ∧ ((r.take dst i).1 = .ok → (r.take dst i).2.2.offset = r.offset + i) := by
  unfold take
  split
  · exact ⟨⟨rfl, Nat.le_add_right _ _⟩, fun _ => rfl⟩
  · rename_i hno _
    exact ⟨.refl r, fun he => (hno he).elim⟩

theorem readUntil_onward (r : BufferReader) (dst : Bytes) (ch : Byte) (extend : Nat) :
    Onward r (r.readUntil dst ch extend).2.2 ∧
      ((r.readUntil dst ch extend).1 = .ok → r.offset + extend ≤ (r.readUntil dst ch extend).2.2.offset) := by
  unfold readUntil
  split
  · exact ⟨.refl r, fun he => by cases he⟩
  · split
    · exact ⟨.refl r, fun he => by cases he⟩
    · rename_i i _
      obtain ⟨ho, hi⟩ := take_onward r dst (i + extend)
      exact ⟨ho, fun he => by rw [hi he]; omega⟩

theorem readUntilAny_onward (r : BufferReader) (dst : Bytes) (chs : List Byte) :
    Onward r (r.readUntilAny dst chs).2.2 := by
  unfold readUntilAny
  split
  · exact .refl r
  · split
    · exact .refl r
    · exact (take_onward r dst _).1

theorem read_onward (r : BufferReader) (dst : Bytes) (n : Nat) : Onward r (r.read dst n).2.2 := by
  unfold read
  split
  · exact .refl r
  · split
    · exact .refl r
    · exact (take_onward r dst n).1

end BufferReader

open BufferReader

/-! ## The two request loops -/

namespace InlineParser

/-- An `OK` has passed the line end and leaves an argument. -/
theorem requestLoop_onward (n : Nat) : ∀ (cmd : Cmd) (r : BufferReader),
    Onward r (requestLoop n cmd r).2.2 ∧
      ((requestLoop n cmd r).1 = .ok → r.offset < (requestLoop n cmd r).2.2.offset ∧
        (requestLoop n cmd r).2.1 ≠ []) := by
  induction n with
  | zero => intro cmd r; exact ⟨.refl r, fun h => by cases h⟩
  | succ n ih =>
    intro cmd r
    have hr := readUntilAny_onward r [] splitSign
    rw [requestLoop]
    split
    · rename_i buf r' heq
      obtain ⟨hb, ho⟩ := readUntilAny_progress heq
      have hr' : Onward r r'.next := ⟨hb, Nat.le_of_lt ho⟩
      split
      · exact ⟨hr', fun _ => ⟨ho, by simp⟩⟩
      · obtain ⟨h1, h2⟩ := ih (cmd ++ [buf]) r'.next
        exact ⟨hr'.trans h1, fun he => ⟨Nat.lt_trans ho (h2 he).1, (h2 he).2⟩⟩
    · rename_i heq
      rw [heq] at hr
      exact ⟨hr, fun he => by cases he⟩
    · rename_i hno _ heq
      rw [heq] at hr
      exact ⟨hr, fun he => (hno he).elim⟩

end InlineParser

namespace MultibulkParser

theorem readInt32_onward (beyond : Bytes) (i : Int) (r : BufferReader) (p : Option Bytes) :
    Onward r (readInt32 beyond i r p).2.2.2 ∧
      ((readInt32 beyond i r p).1 = .ok → r.offset < (readInt32 beyond i r p).2.2.2.offset) := by
  obtain ⟨ho, hi⟩ := readUntil_onward r [] LF 1
  unfold readInt32
  split
  · rename_i heq
    rw [heq] at ho hi
    exact ⟨ho, fun _ => hi rfl⟩
  · rename_i heq
    rw [heq] at ho
    exact ⟨ho, fun he => by cases he⟩
  · rename_i hno _ heq
    rw [heq] at ho
    exact ⟨ho, fun he => (hno he).elim⟩

theorem readLen_onward (beyond : Bytes) (i : Int) (r : BufferReader) (p : Option Bytes) :
    Onward r (readLen beyond i r p).2.2.2 := by
  unfold readLen
  split
  · exact (readInt32_onward beyond i r p).1
  · exact .refl r

theorem requestLoop_onward (beyond : Bytes) (n : Nat) :
    ∀ (m : MultibulkParser) (cmd : Cmd) (r : BufferReader),
    Onward r (requestLoop beyond n m cmd r).2.2.2 := by
  induction n with
  | zero => intro m cmd r; exact .refl r
  | succ n ih =>
    intro m cmd r
    have hl := readLen_onward beyond m.bulkLen r none
    rw [requestLoop]
    split
    · rename_i len _ r1 heq
      rw [heq] at hl
      have hr := hl.trans (read_onward r1 [] (readSize len))
      split
      · rename_i heq'
        rw [heq'] at hr
        exact hr.trans (ih _ _ _)
      · rename_i heq'
        rw [heq'] at hr
        exact hr
      · rename_i heq'
        rw [heq'] at hr
        exact hr
    · rename_i heq
      rw [heq] at hl
      exact hl

/-- A first call that returns `OK` has passed the count line. -/
theorem handleRequest_onward (beyond : Bytes) (m : MultibulkParser) (cmd : Cmd) (r : BufferReader) :
    Onward r (m.handleRequest beyond cmd r).2.2.2 ∧
      ((m.handleRequest beyond cmd r).1 = .ok → m.multibulkLen = 0 →
        r.offset < (m.handleRequest beyond cmd r).2.2.2.offset) := by
  have hl := readLen_onward beyond m.multibulkLen r none
  rw [handleRequest]
  split
  · rename_i len _ r' heq
    rw [heq] at hl
    have h2 := requestLoop_onward beyond (len - m.multibulkIndex).toNat { m with multibulkLen := len } cmd r'
    refine ⟨hl.trans h2, fun _ h0 => ?_⟩
    have hi := (readInt32_onward beyond m.multibulkLen r none).2
    rw [readLen, if_pos h0] at heq
    rw [heq] at hi
    exact Nat.lt_of_lt_of_le (hi rfl) h2.offset
  · rename_i hno heq
    rw [heq] at hl
    exact ⟨hl, fun he _ => (hno he).elim⟩

end MultibulkParser

/-! ## One call -/

namespace CmdParser

/-- The parser as a call leaves it, and as `Reset()` does. -/
structure AtRest (p : CmdParser) : Prop where
  start : p.inputbr = 0
  fresh : p.parseType = .none → p.multibulkParser = .reset

theorem atRest_init : AtRest .init := ⟨rfl, fun _ => rfl⟩

theorem AtRest.reset {p : CmdParser} (h : p.AtRest) : p.reset.AtRest where
  start := h.start
  fresh _ := rfl

theorem AtRest.feed {p : CmdParser} (h : p.AtRest) (chunk : Bytes) : (p.feed chunk).AtRest :=
  ⟨h.start, h.fresh⟩

theorem handOver_rest {p : CmdParser} {r : BufferReader} (h0 : p.inputbr = 0) :
    (p.handOver r).inputbr = 0 ∧ (p.handOver r).parseType = p.parseType ∧
      (p.handOver r).inputb.length ≤ p.inputb.length ∧
      (0 < r.offset → p.inputb ≠ [] → (p.handOver r).inputb.length < p.inputb.length) := by
  unfold handOver
  split
  · rename_i he
    exact ⟨h0, rfl, Nat.le_refl _, fun hr => absurd he (by omega)⟩
  · refine ⟨rfl, rfl, ?_, fun hr hne => ?_⟩
    · show (Buffer.offset p.inputb r.offset).length ≤ p.inputb.length
      unfold Buffer.offset
      split <;> simp
    · show (Buffer.offset p.inputb r.offset).length < p.inputb.length
      have hpos := List.length_pos_iff.mpr hne
      unfold Buffer.offset
      split
      · rw [List.length_drop]; omega
      · exact hpos

/-- What every call keeps, and what an `OK` on a fresh parser costs. -/
theorem parseRequest_progress {p : CmdParser} (hp : p.AtRest) (beyond : Bytes) (cmd : Cmd) :
    (p.parseRequest beyond cmd).2.1.AtRest ∧ (p.parseRequest beyond cmd).2.1.inputb.length ≤ p.inputb.length ∧
      ((p.parseRequest beyond cmd).1 = .ok → p.parseType = .none →
        (p.parseRequest beyond cmd).2.1.inputb.length < p.inputb.length) := by
  obtain ⟨type, m, input, start⟩ := p
  obtain ⟨hstart, hfresh⟩ := hp
  obtain rfl : start = 0 := hstart
  by_cases h0 : input = []
  · subst h0
    rw [parseRequest_nil]
    exact ⟨⟨rfl, hfresh⟩, Nat.le_refl _, fun he => by cases he⟩
  have heof : (⟨input, 0⟩ : BufferReader).eof = false := by simpa [BufferReader.eof] using h0
  simp only [parseRequest, heof, Bool.false_eq_true, if_false]
  generalize htype : (if type = .none then
    (if (⟨input, 0⟩ : BufferReader).current = 42 then ParseType.multibulk else .inline) else type) = t
  have hset : t ≠ .none := by
    rw [← htype]
    split
    · split <;> simp
    · assumption
  split
  · have hi := (MultibulkParser.handleRequest_onward beyond m cmd ⟨input, 0⟩).2
    have hh := handOver_rest (p := ⟨t, (m.handleRequest beyond cmd ⟨input, 0⟩).2.1, input, 0⟩)
      (r := (m.handleRequest beyond cmd ⟨input, 0⟩).2.2.2) rfl
    refine ⟨⟨hh.1, fun hn => absurd (hh.2.1.symm.trans hn) hset⟩, hh.2.2.1,
      fun he hn => hh.2.2.2 (hi he ?_) h0⟩
    exact congrArg MultibulkParser.multibulkLen (hfresh hn)
  · have hi := (InlineParser.requestLoop_onward (input.length + 1) cmd ⟨input, 0⟩).2
    have hh := handOver_rest (p := ⟨t, m, input, 0⟩)
      (r := (InlineParser.handleRequest cmd ⟨input, 0⟩).2.2) rfl
    exact ⟨⟨hh.1, fun hn => absurd (hh.2.1.symm.trans hn) hset⟩, hh.2.2.1, fun he _ => hh.2.2.2 (hi he).1 h0⟩

end CmdParser

end RedisProxy.Wire
