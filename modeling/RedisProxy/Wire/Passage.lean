/-
  RedisProxy.Wire.Passage — a reply call moves bytes from the input to `resp`.

  Whatever the bytes are and however the call ends, what it appends to `resp` is what
  leaves the input. One call would not keep that: a `Read` of size 0, which appends all
  that is before it and passes nothing. A stored length is never negative, so no reply
  asks for it (`Counting`).

  Proved: `parseResponse_passed`, from one lemma for each reader operation.
-/

import RedisProxy.Wire.Progress

namespace RedisProxy.Wire

open Lib.Decimal

namespace BufferReader

variable {r r' r'' : BufferReader} {dst dst' dst'' : Bytes}

/-- From `r` to `r'`, `dst` to `dst'`: the bytes passed are the bytes appended. -/
structure Passed (r : BufferReader) (dst : Bytes) (r' : BufferReader) (dst' : Bytes) : Prop where
  buffer : r'.buffer = r.buffer
  le : r'.offset ≤ r.buffer.length
  bytes : dst' ++ r.buffer.drop r'.offset = dst ++ r.buffer.drop r.offset

theorem Passed.refl (hle : r.offset ≤ r.buffer.length) (dst : Bytes) : Passed r dst r dst := ⟨rfl, hle, rfl⟩

theorem Passed.trans (h : Passed r dst r' dst') (h' : Passed r' dst' r'' dst'') : Passed r dst r'' dst'' := by
  obtain ⟨hb, hl, he⟩ := h
  obtain ⟨hb', hl', he'⟩ := h'
  rw [hb] at hl' he'
  exact ⟨hb'.trans hb, hl', he'.trans he⟩

theorem Passed.append (h : Passed r [] r' dst') (dst : Bytes) : Passed r dst r' (dst ++ dst') := by
  obtain ⟨hb, hl, he⟩ := h
  refine ⟨hb, hl, ?_⟩
  rw [List.append_assoc, he, List.nil_append]

theorem Passed.length (h : Passed r dst r' dst') :
    dst'.length + (r.buffer.length - r'.offset) = dst.length + (r.buffer.length - r.offset) := by
  have he := congrArg List.length h.bytes
  simpa only [List.length_append, List.length_drop] using he

/-- Before an operation: the reader is within its buffer, and that is small enough. -/
structure Within (r : BufferReader) : Prop where
  le : r.offset ≤ r.buffer.length
  lt : r.buffer.length < 2 ^ 31

theorem Within.passed (hw : r.Within) (h : Passed r dst r' dst') : r'.Within := by
  obtain ⟨hb, hl, _⟩ := h
  exact ⟨by rw [hb]; exact hl, by rw [hb]; exact hw.lt⟩

theorem take_passed (hw : r.Within) (dst : Bytes) {i : Nat} (h0 : i ≠ 0) :
    Passed r dst (r.take dst i).2.2 (r.take dst i).2.1 := by
  have hle := hw.le
  have hlt := hw.lt
  have hrest : r.rest = r.buffer.drop r.offset := by
    unfold rest Buffer.offset
    rw [if_pos (by omega)]
  unfold take
  rw [hrest, Buffer.append, if_neg h0]
  by_cases hshort : (r.buffer.drop r.offset).length < i
  · rw [if_pos hshort]
    exact .refl hle dst
  · rw [if_neg hshort]
    rw [List.length_drop] at hshort
    refine ⟨rfl, by show r.offset + i ≤ _; omega, ?_⟩
    show (dst ++ (r.buffer.drop r.offset).take i) ++ r.buffer.drop (r.offset + i) = _
    rw [List.append_assoc, ← List.drop_drop, List.take_append_drop]

theorem readUntil_passed (hw : r.Within) (dst : Bytes) (ch : Byte) :
    Passed r dst (r.readUntil dst ch 1).2.2 (r.readUntil dst ch 1).2.1 := by
  unfold readUntil
  split
  · exact .refl hw.le dst
  · split
    · exact .refl hw.le dst
    · exact take_passed hw dst (Nat.succ_ne_zero _)

/-- A read that fails leaves all as it was. -/
theorem readUntil_failed (r : BufferReader) (dst : Bytes) (ch : Byte) (extend : Nat) :
    (r.readUntil dst ch extend).1 ≠ .ok →
      (r.readUntil dst ch extend).2.1 = dst ∧ (r.readUntil dst ch extend).2.2 = r := by
  unfold readUntil
  split
  · exact fun _ => ⟨rfl, rfl⟩
  · split
    · exact fun _ => ⟨rfl, rfl⟩
    · unfold take
      split
      · exact fun hne => absurd rfl hne
      · exact fun _ => ⟨rfl, rfl⟩

theorem read_passed (hw : r.Within) (dst : Bytes) {n : Nat} (h0 : n ≠ 0) :
    Passed r dst (r.read dst n).2.2 (r.read dst n).2.1 := by
  unfold read
  split
  · exact .refl hw.le dst
  · split
    · exact .refl hw.le dst
    · exact take_passed hw dst h0

end BufferReader

open BufferReader

namespace MultibulkParser

variable (beyond : Bytes) {m : MultibulkParser} {r : BufferReader}

/-- A stored length is one an item still to be read can have. -/
def Counting (m : MultibulkParser) : Prop := 0 ≤ m.bulkLen ∧ m.bulkLen < 2 ^ 31

theorem counting_reset : Counting reset := ⟨Int.le_refl 0, by decide⟩

theorem readInt32_passed (hw : r.Within) (i : Int) (dst : Bytes) :
    Passed r dst (readInt32 beyond i r (some dst)).2.2.2 ((readInt32 beyond i r (some dst)).2.2.1.getD dst) := by
  have hp := readUntil_passed hw [] LF
  have hf := readUntil_failed r [] LF 1
  unfold readInt32
  split
  · rename_i line r' heq
    rw [heq] at hp
    exact hp.append dst
  · rename_i line r' heq
    rw [heq] at hf
    obtain ⟨_, rfl⟩ := hf Error.noConfusion
    exact .refl hw.le dst
  · rename_i e line r' hno _ heq
    rw [heq] at hf
    obtain ⟨_, rfl⟩ := hf hno
    exact .refl hw.le dst

theorem readInt32_range (i : Int) (p : Option Bytes) (h1 : -2 ^ 31 ≤ i) (h2 : i < 2 ^ 31) :
    -2 ^ 31 ≤ (readInt32 beyond i r p).2.1 ∧ (readInt32 beyond i r p).2.1 < 2 ^ 31 := by
  unfold readInt32
  split
  · exact parseInt32_range _ _ _
  · exact ⟨h1, h2⟩
  · exact ⟨h1, h2⟩

theorem readLen_passed (hw : r.Within) (i : Int) (dst : Bytes) :
    Passed r dst (readLen beyond i r (some dst)).2.2.2 ((readLen beyond i r (some dst)).2.2.1.getD dst) := by
  unfold readLen
  split
  · exact readInt32_passed beyond hw i dst
  · exact .refl hw.le dst

theorem readInt32_failed (i : Int) (p : Option Bytes) (hne : (readInt32 beyond i r p).1 ≠ .ok) :
    (readInt32 beyond i r p).2.1 = i := by
  unfold readInt32 at hne ⊢
  split
  · rename_i heq
    rw [heq] at hne
    exact absurd rfl hne
  · rfl
  · rfl

/-- A length that is there does not fail. -/
theorem readLen_failed (i : Int) (p : Option Bytes) (hne : (readLen beyond i r p).1 ≠ .ok) :
    i = 0 ∧ (readLen beyond i r p).2.1 = 0 := by
  unfold readLen at hne ⊢
  by_cases h0 : i = 0
  · rw [if_pos h0] at hne ⊢
    exact ⟨h0, by rw [readInt32_failed beyond i p hne, h0]⟩
  · rw [if_neg h0] at hne
    exact absurd rfl hne

/-- What a round does with a length that it has read, or was left with. -/
theorem readLen_counting (hm : m.Counting) (p : Option Bytes) :
    (readLen beyond m.bulkLen r p).2.1 < 2 ^ 31 ∧
      (¬ (m.bulkLen = 0 ∧ (readLen beyond m.bulkLen r p).2.1 ≤ 0) → 0 < (readLen beyond m.bulkLen r p).2.1) := by
  obtain ⟨h1, h2⟩ := hm
  have hr := readInt32_range beyond (r := r) m.bulkLen p (by omega) h2
  unfold readLen
  split
  · exact ⟨hr.2, fun _ => by omega⟩
  · exact ⟨h2, fun _ => show 0 < m.bulkLen by omega⟩

theorem readSize_ne_zero {len : Int} (h1 : 0 < len) (h2 : len < 2 ^ 31) : readSize len ≠ 0 := by
  by_cases hbig : 2 ^ 31 ≤ len + 2
  · have := readSize_wrap hbig h2
    omega
  · have hsize := readSize_range (show -2 ≤ len by omega) (by omega)
    omega

theorem responseLoop_passed (n : Nat) : ∀ (m : MultibulkParser) (pbuf : Bytes) (r : BufferReader),
    r.Within → m.Counting →
      Passed r pbuf (responseLoop beyond n m pbuf r).2.2.2 (responseLoop beyond n m pbuf r).2.2.1 ∧
        (responseLoop beyond n m pbuf r).2.1.Counting := by
  induction n with
  | zero =>
    intro m pbuf r hw hm
    exact ⟨.refl hw.le pbuf, hm⟩
  | succ n ih =>
    intro m pbuf r hw hm
    have hp := readLen_passed beyond hw m.bulkLen pbuf
    obtain ⟨hlt, hpos⟩ := readLen_counting beyond (r := r) hm (some pbuf)
    have hfail := readLen_failed beyond (r := r) m.bulkLen (some pbuf)
    rw [responseLoop]
    split
    · rename_i len pb r1 heq
      rw [heq] at hp hlt hpos
      have hw1 := hw.passed hp
      dsimp only
      split
      · -- the line is the item
        obtain ⟨hrest, hm'⟩ := ih { m with multibulkIndex := m.multibulkIndex + 1, bulkLen := 0 }
          (pb.getD pbuf) r1 hw1 counting_reset
        exact ⟨hp.trans hrest, hm'⟩
      · rename_i hitem
        have hpos := hpos hitem
        have hr := read_passed hw1 (pb.getD pbuf) (readSize_ne_zero hpos hlt)
        have hm1 : Counting { m with bulkLen := len } := ⟨Int.le_of_lt hpos, hlt⟩
        split
        · rename_i q r2 heq2
          rw [heq2] at hr
          obtain ⟨hrest, hm'⟩ := ih { m with multibulkIndex := m.multibulkIndex + 1, bulkLen := 0 }
            q r2 (hw1.passed hr) counting_reset
          exact ⟨(hp.trans hr).trans hrest, hm'⟩
        · rename_i q r2 heq2
          rw [heq2] at hr
          exact ⟨hp.trans hr, hm1⟩
        · rename_i e q r2 _ _ heq2
          rw [heq2] at hr
          exact ⟨hp.trans hr, hm1⟩
    · rename_i e len pb r1 hno heq
      rw [heq] at hp hfail
      obtain rfl : len = 0 := (hfail hno).2
      exact ⟨hp, counting_reset⟩

theorem handleResponse_passed (hw : r.Within) (hm : m.Counting) (pbuf : Bytes) :
    Passed r pbuf (handleResponse beyond m pbuf r).2.2.2 (handleResponse beyond m pbuf r).2.2.1 ∧
      (handleResponse beyond m pbuf r).2.1.Counting := by
  have hcount : Passed r pbuf (readCount beyond m pbuf r).2.2.2 ((readCount beyond m pbuf r).2.2.1.getD pbuf) := by
    unfold readCount
    split
    · split
      · exact readInt32_passed beyond hw m.multibulkLen pbuf
      · exact .refl hw.le pbuf
    · exact .refl hw.le pbuf
  unfold handleResponse
  split
  · rename_i len pb r1 heq
    rw [heq] at hcount
    have hm1 : Counting { m with multibulkLen := len } := hm
    obtain ⟨hrest, hm'⟩ := responseLoop_passed beyond (len - m.multibulkIndex).toNat
      { m with multibulkLen := len } (pb.getD pbuf) r1 (hw.passed hcount) hm1
    exact ⟨hcount.trans hrest, hm'⟩
  · rename_i e len pb r1 _ heq
    rw [heq] at hcount
    exact ⟨hcount, hm⟩

end MultibulkParser

theorem InlineParser.handleResponse_passed {r : BufferReader} (hw : r.Within) (buf : Bytes) :
    Passed r buf (InlineParser.handleResponse buf r).2.2 (InlineParser.handleResponse buf r).2.1 := by
  have hp := readUntil_passed hw buf LF
  unfold handleResponse
  split
  · rename_i heq
    rwa [heq] at hp
  · rename_i heq
    rwa [heq] at hp

namespace CmdParser

/-- Between calls: the reader is at the input's start. -/
structure Settled (P : CmdParser) : Prop where
  inputbr : P.inputbr = 0
  counting : P.multibulkParser.Counting

theorem settled_init : init.Settled := ⟨rfl, MultibulkParser.counting_reset⟩

theorem Settled.reset {P : CmdParser} (h : P.Settled) : P.reset.Settled := ⟨h.inputbr, MultibulkParser.counting_reset⟩

theorem handOver_passed {P : CmdParser} {r : BufferReader} {resp resp' : Bytes} (h0 : P.inputbr = 0)
    (hlt : P.inputb.length < 2 ^ 31) (hp : Passed ⟨P.inputb, 0⟩ resp r resp') :
    (P.handOver r).inputbr = 0 ∧ resp' ++ (P.handOver r).inputb = resp ++ P.inputb := by
  obtain ⟨hb, hle, he⟩ := hp
  have he : resp' ++ P.inputb.drop r.offset = resp ++ P.inputb := he
  have hle : r.offset ≤ P.inputb.length := hle
  unfold handOver
  rw [h0]
  split
  · rename_i hr
    rw [← hr] at he
    exact ⟨h0, he⟩
  · refine ⟨rfl, ?_⟩
    rw [Buffer.offset, if_pos (by omega)]
    exact he

theorem handOver_multibulkParser (P : CmdParser) (r : BufferReader) :
    (P.handOver r).multibulkParser = P.multibulkParser := by
  unfold handOver
  split <;> rfl

/-- Whatever the bytes are, and whatever the call returns. -/
theorem parseResponse_passed (beyond : Bytes) {P : CmdParser} (hP : P.Settled) (hlt : P.inputb.length < 2 ^ 31)
    (resp : Bytes) :
    (P.parseResponse beyond resp).2.1.Settled ∧
      (P.parseResponse beyond resp).2.2 ++ (P.parseResponse beyond resp).2.1.inputb = resp ++ P.inputb := by
  obtain ⟨h0, hm⟩ := hP
  have hw : Within ⟨P.inputb, 0⟩ := ⟨Nat.zero_le _, hlt⟩
  unfold parseResponse
  rw [h0]
  dsimp only
  split
  · exact ⟨⟨h0, hm⟩, rfl⟩
  · generalize (if P.parseType = .none then responseType (⟨P.inputb, 0⟩ : BufferReader).current
      else P.parseType) = type
    split
    · exact ⟨⟨h0, hm⟩, rfl⟩
    · split
      · obtain ⟨hp, hm'⟩ := MultibulkParser.handleResponse_passed beyond hw hm resp
        rcases hx : P.multibulkParser.handleResponse beyond resp ⟨P.inputb, 0⟩ with ⟨e, m', resp', r'⟩
        rw [hx] at hp hm'
        obtain ⟨h0', hbytes⟩ := handOver_passed (P := ⟨type, m', P.inputb, 0⟩) rfl hlt hp
        refine ⟨⟨h0', ?_⟩, hbytes⟩
        rw [handOver_multibulkParser]
        exact hm'
      · have hp := InlineParser.handleResponse_passed hw resp
        rcases hx : InlineParser.handleResponse resp ⟨P.inputb, 0⟩ with ⟨e, resp', r'⟩
        rw [hx] at hp
        obtain ⟨h0', hbytes⟩ := handOver_passed (P := ⟨type, P.multibulkParser, P.inputb, 0⟩) rfl hlt hp
        refine ⟨⟨h0', ?_⟩, hbytes⟩
        rw [handOver_multibulkParser]
        exact hm

end CmdParser

end RedisProxy.Wire
