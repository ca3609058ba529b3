/-
  RedisProxy.Wire.Edge — the one place where a reply that is still arriving is an error.

  Short of the end of a reply `ParseResponse` should return `TryAgain`. A delimiter that is
  not there yet is `NotFound` and becomes `TryAgain`; an item's bytes that are not there are
  `OutOfBound` and become `TryAgain`; but where an item's line would begin and nothing is
  there at all, `OutOfBound` goes through.

  Proved: `parseResponse_error`, what an error other than `TryAgain` says of the parser it
  leaves, and `waiting_edge`: for a reply that is followed it says `Reply.Edge`.
-/

import RedisProxy.Wire.Answer
import RedisProxy.Wire.Progress

namespace RedisProxy.Wire

open Lib.Decimal Lib.Pieces

/-- `p` is the count line of an array and some of its elements, and another is to come. -/
def Reply.Edge (r : Reply) (p : Bytes) : Prop :=
  ∃ len done x todo, Layout r (numLine 42 len) len (done ++ x :: todo) ∧
    p = numLine 42 len ++ done.flatMap Reply.encode

/-! ## Errors -/

namespace BufferReader

variable {r : BufferReader} {dst : Bytes}

theorem take_ok {i : Nat} (hi : i ≤ r.rest.length) : (r.take dst i).1 = .ok := by
  unfold take Buffer.append
  by_cases h0 : i = 0
  · rw [if_pos h0]
  · rw [if_neg h0, if_neg (by omega)]

/-- A read of a line is out of bounds at the end of the input only. -/
theorem readUntil_error (r : BufferReader) (dst : Bytes) (ch : Byte) :
    (r.readUntil dst ch 1).1 = .ok ∨ (r.readUntil dst ch 1).1 = .notFound ∨
      (r.readUntil dst ch 1 = (.outOfBound, dst, r) ∧ r.eof = true) := by
  unfold readUntil
  by_cases hend : r.eof = true
  · rw [if_pos hend]
    exact Or.inr (Or.inr ⟨rfl, hend⟩)
  · rw [if_neg hend]
    cases hf : memchr r.rest ch with
    | none => exact Or.inr (Or.inl rfl)
    | some i =>
      obtain ⟨line, s, hl, _, rfl⟩ := memchr_eq_some hf
      refine Or.inl (take_ok ?_)
      rw [hl, List.length_append, List.length_cons]
      omega

/-- A read of bytes that does not succeed is out of bounds. -/
theorem read_error (r : BufferReader) (dst : Bytes) (n : Nat) :
    (r.read dst n).1 = .ok ∨ (r.read dst n).1 = .outOfBound := by
  unfold read
  split
  · exact Or.inr rfl
  · split
    · exact Or.inr rfl
    · unfold take Buffer.append
      by_cases h0 : n = 0
      · rw [if_pos h0]
        exact Or.inl rfl
      · rw [if_neg h0]
        split_ifs
        · exact Or.inr rfl
        · exact Or.inl rfl

end BufferReader

namespace MultibulkParser

variable (beyond : Bytes)

/-- So is a line of a reply. -/
theorem readInt32_error (i : Int) (r : BufferReader) (p : Option Bytes) :
    (readInt32 beyond i r p).1 = .ok ∨ (readInt32 beyond i r p).1 = .tryAgain ∨
      (readInt32 beyond i r p = (.outOfBound, i, p, r) ∧ r.eof = true) := by
  unfold readInt32
  rcases BufferReader.readUntil_error r [] LF with he | he | ⟨he, hend⟩
  · rcases hx : r.readUntil [] LF 1 with ⟨e, line, r'⟩
    rw [hx] at he
    obtain rfl : e = .ok := he
    exact Or.inl rfl
  · rcases hx : r.readUntil [] LF 1 with ⟨e, line, r'⟩
    rw [hx] at he
    obtain rfl : e = .notFound := he
    exact Or.inr (Or.inl rfl)
  · rw [he]
    exact Or.inr (Or.inr ⟨rfl, hend⟩)

/-- An item's line is to be read, and nothing is left of the input of `r`. -/
structure AtLine (r : BufferReader) (m : MultibulkParser) (r' : BufferReader) : Prop where
  bulkLen : m.bulkLen = 0
  eof : r'.eof = true
  buffer : r'.buffer = r.buffer

theorem responseLoop_error (n : Nat) : ∀ (m : MultibulkParser) (pbuf : Bytes) (r : BufferReader),
    let res := responseLoop beyond n m pbuf r
    res.1 = .ok ∨ res.1 = .tryAgain ∨ res.1 = .outOfBound ∧ AtLine r res.2.1 res.2.2.2 := by
  induction n with
  | zero => intro m pbuf r; exact Or.inl rfl
  | succ n ih =>
    intro m pbuf r
    dsimp only
    rw [responseLoop]
    have hl := (readLen_onward beyond m.bulkLen r (some pbuf)).buffer
    rcases hx : readLen beyond m.bulkLen r (some pbuf) with ⟨e, len, p, r'⟩
    rw [hx] at hl
    have hl : r'.buffer = r.buffer := hl
    cases e with
    | ok =>
      have hloop : ∀ m' pbuf' r'', r''.buffer = r'.buffer →
          let res := responseLoop beyond n m' pbuf' r''
          res.1 = .ok ∨ res.1 = .tryAgain ∨ res.1 = .outOfBound ∧ AtLine r res.2.1 res.2.2.2 := by
        intro m' pbuf' r'' hb
        refine (ih m' pbuf' r'').imp_right (Or.imp_right fun h => ?_)
        exact ⟨h.1, h.2.bulkLen, h.2.eof, h.2.buffer.trans (hb.trans hl)⟩
      dsimp only
      split
      · exact hloop _ _ _ rfl
      · have herr := BufferReader.read_error r' (p.getD pbuf) (readSize len)
        have hb := (BufferReader.read_onward r' (p.getD pbuf) (readSize len)).buffer
        rcases hr : r'.read (p.getD pbuf) (readSize len) with ⟨e, buf, r''⟩
        rw [hr] at herr hb
        rcases herr with he | he
        · obtain rfl : e = .ok := he
          exact hloop _ _ _ hb
        · obtain rfl : e = .outOfBound := he
          exact Or.inr (Or.inl rfl)
    | _ =>
      -- a length that is there does not fail
      unfold readLen at hx
      by_cases h0 : m.bulkLen = 0
      · rw [if_pos h0] at hx
        have herr := readInt32_error beyond m.bulkLen r (some pbuf)
        rw [hx] at herr
        rcases herr with he | he | ⟨he, hend⟩
        · cases he
        · cases he <;> exact Or.inr (Or.inl rfl)
        · cases he <;> exact Or.inr (Or.inr ⟨rfl, h0, hend, rfl⟩)
      · rw [if_neg h0] at hx
        cases hx

theorem handleResponse_error (m : MultibulkParser) (pbuf : Bytes) {r : BufferReader} (hne : r.eof = false) :
    let res := handleResponse beyond m pbuf r
    res.1 = .ok ∨ res.1 = .tryAgain ∨ res.1 = .outOfBound ∧ AtLine r res.2.1 res.2.2.2 := by
  dsimp only
  unfold handleResponse readCount
  have hcount := readInt32_error beyond m.multibulkLen r (some pbuf)
  have hb := (readInt32_onward beyond m.multibulkLen r (some pbuf)).1.buffer
  by_cases h0 : m.multibulkLen = 0
  · rw [if_pos h0]
    by_cases hmark : r.current = 42
    · rw [if_pos hmark]
      rcases hx : readInt32 beyond m.multibulkLen r (some pbuf) with ⟨e, len, p, r'⟩
      rw [hx] at hcount hb
      rcases hcount with he | he | ⟨_, hend⟩
      · obtain rfl : e = .ok := he
        refine (responseLoop_error beyond _ _ _ r').imp_right (Or.imp_right fun h => ?_)
        exact ⟨h.1, h.2.bulkLen, h.2.eof, h.2.buffer.trans hb⟩
      · obtain rfl : e = .tryAgain := he
        exact Or.inr (Or.inl rfl)
      · rw [hne] at hend
        cases hend
    · rw [if_neg hmark]
      exact responseLoop_error beyond _ _ _ r
  · rw [if_neg h0]
    exact responseLoop_error beyond _ _ _ r

end MultibulkParser

namespace CmdParser

/-- What a call that returns neither `OK` nor `TryAgain` has met: a first byte that no reply
    has, or the end of the input where an item's line should begin. -/
theorem parseResponse_error (beyond : Bytes) {P : CmdParser} (h0 : P.inputbr = 0) (resp : Bytes) :
    let res := P.parseResponse beyond resp
    res.1 = .ok ∨ res.1 = .tryAgain ∨ (res.1 = .unknown ∧ res.2.1 = P ∧ P.parseType = .none) ∨
      (res.1 = .outOfBound ∧ res.2.1.inputb = [] ∧ res.2.1.multibulkParser.bulkLen = 0) := by
  obtain ⟨mode, m, input, br⟩ := P
  obtain rfl : br = 0 := h0
  dsimp only
  unfold parseResponse
  dsimp only
  by_cases hend : (⟨input, 0⟩ : BufferReader).eof = true
  · rw [if_pos hend]
    exact Or.inr (Or.inl rfl)
  rw [if_neg hend]
  by_cases hnone : (if mode = .none then responseType (⟨input, 0⟩ : BufferReader).current else mode) = .none
  · rw [if_pos hnone]
    refine Or.inr (Or.inr (Or.inl ⟨rfl, rfl, ?_⟩))
    by_contra hmode
    rw [if_neg hmode] at hnone
    exact hmode hnone
  rw [if_neg hnone]
  generalize (if mode = .none then responseType (⟨input, 0⟩ : BufferReader).current else mode) = type
  by_cases hmulti : type = .multibulk
  · rw [if_pos hmulti]
    have herr := MultibulkParser.handleResponse_error beyond m resp (Bool.eq_false_iff.mpr hend)
    rcases hx : m.handleResponse beyond resp ⟨input, 0⟩ with ⟨e, m', resp', r⟩
    rw [hx] at herr
    rcases herr with he | he | ⟨he, hb, hr, hbuf⟩
    · exact Or.inl he
    · exact Or.inr (Or.inl he)
    · refine Or.inr (Or.inr (Or.inr ⟨he, ?_, ?_⟩))
      · rw [BufferReader.eof, decide_eq_true_eq, hbuf] at hr
        rw [BufferReader.eof, decide_eq_true_eq] at hend
        have hr : input.length ≤ r.offset := hr
        have hend : ¬ input.length ≤ 0 := hend
        unfold handOver
        rw [if_neg (show ¬ (0 : Nat) = r.offset by omega)]
        show Buffer.offset input r.offset = []
        unfold Buffer.offset
        split
        · exact List.drop_of_length_le hr
        · rfl
      · unfold handOver
        split <;> exact hb
  · rw [if_neg hmulti]
    unfold InlineParser.handleResponse
    rcases hx : (⟨input, 0⟩ : BufferReader).readUntil resp LF 1 with ⟨e, d, r⟩
    cases e with
    | notFound => exact Or.inr (Or.inl rfl)
    | _ => exact Or.inl rfl

end CmdParser

/-! ## Replies -/

section Replies

variable {r : Reply} {p a resp : Bytes} {P : CmdParser}

theorem Halfway.inputbr (hs : Halfway r p P resp) : P.inputbr = 0 := by
  cases hs <;> rfl

theorem Halfway.mode (hs : Halfway r p P resp) (hmode : P.parseType = .none) : p = [] := by
  cases hs with
  | start => rfl
  | _ => cases hmode

/-- Where everything is read and no length is kept, an element's line comes next. -/
theorem Halfway.edge (hs : Halfway r p P resp) (h0 : p ≠ []) (hin : P.inputb = [])
    (hb : P.multibulkParser.bulkLen = 0) : r.Edge p := by
  cases hs with
  | start => exact absurd rfl h0
  | line _ _ hne => exact absurd hin hne
  | count _ _ hne => exact absurd hin hne
  | @header c w len done todo x hlay hw hne =>
    obtain rfl : w = [] := hin
    rw [List.append_nil] at h0 ⊢
    rcases hlay.line with ⟨rfl, rfl, _⟩ | ⟨rfl, _⟩
    · -- a bulk string alone has no element behind it
      have hcount := hlay.count
      rw [List.length_append, List.length_cons] at hcount
      have hnil : done = [] := List.eq_nil_of_length_eq_zero (by omega)
      rw [hnil] at h0
      exact absurd rfl h0
    · exact ⟨len, done, x, todo, hlay, rfl⟩
  | @payload c w len done todo x hlay hw =>
    have hpos := (MultibulkParser.item_body (hlay.items x (by simp)) hw).1
    have hb : x.itemLen = 0 := hb
    omega

/-- Short of the end of a reply, only an edge is an error. -/
theorem waiting_edge (beyond : Bytes) (hr : r.Steady) (hs : Halfway r p P resp) (h0 : P.inputb ++ a ≠ [])
    (hpos : (P.inputb ++ a).length < 2 ^ 31) (hp : Proper (p ++ a) r.encode) :
    ((P.feed a).parseResponse beyond resp).1 = .tryAgain ∨
      ((P.feed a).parseResponse beyond resp).1 = .outOfBound ∧ r.Edge (p ++ a) := by
  have hw : Waiting r (p ++ a) ((P.feed a).parseResponse beyond resp) := parseResponse_part hr hs h0 hpos hp
  obtain ⟨hne, hpos'⟩ := hw
  have hq : p ++ a ≠ [] := by
    intro hnil
    obtain ⟨rfl, rfl⟩ := List.append_eq_nil_iff.mp hnil
    rw [(halfway_nil hs).1] at h0
    exact h0 rfl
  have hbr : (P.feed a).inputbr = 0 := hs.inputbr
  rcases CmdParser.parseResponse_error beyond hbr resp with he | he | ⟨_, hP, hmode⟩ | ⟨he, hin, hb⟩
  · exact absurd he hne
  · exact Or.inl he
  · rw [hP] at hpos'
    exact absurd (hpos'.mode hmode) hq
  · exact Or.inr ⟨he, hpos'.edge hq hin hb⟩

end Replies

end RedisProxy.Wire
