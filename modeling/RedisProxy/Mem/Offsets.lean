/-
  RedisProxy.Mem.Offsets — positions in large inputs (buffer.cpp, buffer_reader.cpp, cmd.cpp).

  `Offset` takes its start as an `int32_t` and makes a `std::size_t` of it again. The reader and the
  parser give it positions that are `std::size_t`: from 2^31 on they come out negative, `offset_` wraps
  past `size_`, and nothing is left of the buffer.

  A read makes `tmpBuffer` of the input and its position; `slice` is what that is in exact arithmetic, and
  `findIn` what a read does with it. The parser gives the position it has reached to `Offset` in the end
  (`handOver`).

  Proved: `offsets_iff`: `Offset`, the reads and the hand-over do as exact arithmetic does, exactly for positions
  below 2^31, and where everything was consumed.
-/

import RedisProxy.Mem.Growth
import RedisProxy.Mem.Progress

namespace RedisProxy.Mem

open Lib.Cells Lib.Decimal Wire

variable {h : Heap} {b input : Buffer} {n o : Nat}

/-- `b'` is `b` without its first `n` bytes, whatever they are. -/
def Buffer.Dropped (b b' : Buffer) (n : Nat) : Prop := ∀ h : Heap, b'.contents h = (b.contents h).drop n

theorem dropped_iff (hb : b.Shaped h) (hlt : b.size < 2 ^ 32) (hn : n ≤ b.used) :
    b.Dropped (b.offsetBy (int32 n) 0) n ↔ n < 2 ^ 31 ∨ n = b.used := by
  have hle := hb.offset_le
  have hused : b.used = b.size - b.offset := rfl
  by_cases hnear : n < 2 ^ 31
  · rw [offsetBy_near hle hlt hn hnear]
    exact iff_of_true (fun _ => contents_start hn) (Or.inl hnear)
  · rw [offsetBy_far hle hlt hn (Nat.le_of_not_lt hnear)]
    constructor
    · intro hdrop
      have hlen := congrArg List.length (hdrop h)
      have hnil := length_contents_le h ⟨b.data, b.size, b.size⟩
      rw [hlen, List.length_drop, hb.length] at hnil
      have hnil : b.used - n ≤ b.size - b.size := hnil
      omega
    · rintro (hlt | rfl) g
      · exact absurd hlt hnear
      · rw [← contents_start (Nat.le_refl b.used), show b.offset + b.used = b.size by omega]

/-! ## The reader -/

namespace BufferReader

/-- `ReadUntil(buffer, chs, extend)`. -/
def readUntilSet (h : Heap) (input : Buffer) (o : Nat) (dst : Buffer) (chs : List Byte) (extend : Nat) :
    Error × Heap × Buffer × Nat :=
  if eof input o then (.outOfBound, h, dst, o)
  else
    match tmpBuffer h input o with
    | (h, tmp) =>
      match chs.findSome? (memchr (tmp.contents h)) with
      | none => (.notFound, tmp.destroy h, dst, o)
      | some i => take h tmp dst o (i + extend)

/-- As the parser calls it. -/
theorem readUntilSet_zero (h : Heap) (input : Buffer) (o : Nat) (dst : Buffer) (chs : List Byte) :
    readUntilSet h input o dst chs 0 = readUntilAny h input o dst chs := rfl

/-- `tmpBuffer` in exact arithmetic. -/
def slice (h : Heap) (input : Buffer) (o : Nat) : Heap × Buffer :=
  ((Buffer.copy h input).1, ⟨input.data, input.size, input.offset + o⟩)

theorem readUntilSet_eq (h : Heap) (input : Buffer) (o : Nat) (dst : Buffer) (chs : List Byte) (extend : Nat) :
    readUntilSet h input o dst chs extend =
      if eof input o then (.outOfBound, h, dst, o)
      else findIn (tmpBuffer h input o) o dst (fun l => chs.findSome? (memchr l)) extend := rfl

/-- The reads at `o` work on the bytes from `o` on. -/
structure ReadsAt (h : Heap) (input : Buffer) (o : Nat) : Prop where
  one : ∀ dst ch extend, readUntil h input o dst ch extend = findIn (slice h input o) o dst (memchr · ch) extend
  set : ∀ dst chs extend,
    readUntilSet h input o dst chs extend = findIn (slice h input o) o dst (fun l => chs.findSome? (memchr l)) extend
  read : ∀ dst length, length ≤ input.used - o →
    read h input o dst length = take (slice h input o).1 (slice h input o).2 dst o length

theorem slice_contents (h : Heap) (ho : o ≤ input.used) :
    (slice h input o).2.contents (slice h input o).1 = (input.contents h).drop o := by
  have hcells : ∀ a, input.data = some a → (Buffer.copy h input).1.cellsAt a = h.cellsAt a := by
    intro a ha
    show (h.acquire input.data).cellsAt a = h.cellsAt a
    rw [ha]
    exact (sameAt_incrRef h a a).cells
  have hsame : input.contents (Buffer.copy h input).1 = input.contents h := by
    unfold Buffer.contents
    cases hd : input.data with
    | none => rfl
    | some a =>
      dsimp only
      rw [hcells a hd]
  rw [← hsame]
  exact contents_start ho

/-- The slice a read makes, and the one it should. -/
theorem tmpBuffer_near (hle : input.offset ≤ input.size) (hlt : input.size < 2 ^ 32) (ho : o ≤ input.used)
    (hnear : o < 2 ^ 31) : tmpBuffer h input o = slice h input o :=
  Prod.ext rfl (offsetBy_near hle hlt ho hnear)

theorem tmpBuffer_far (hle : input.offset ≤ input.size) (hlt : input.size < 2 ^ 32) (ho : o ≤ input.used)
    (hfar : 2 ^ 31 ≤ o) : tmpBuffer h input o = ((Buffer.copy h input).1, ⟨input.data, input.size, input.size⟩) :=
  Prod.ext rfl (offsetBy_far hle hlt ho hfar)

theorem reads_at_iff (hle : input.offset ≤ input.size) (hlt : input.size < 2 ^ 32) (ho : o < input.used) :
    ReadsAt h input o ↔ o < 2 ^ 31 := by
  have hend : ¬ eof input o = true := fun hend => Nat.not_le_of_lt ho (le_of_eof hend)
  have hused : input.used = input.size - input.offset := rfl
  constructor
  · intro hreads
    by_contra hnear
    -- the rest of the input, read into a null buffer
    have hread := congrArg Prod.fst (hreads.read .null (input.used - o) (Nat.le_refl _))
    have htmp : (Buffer.append (Buffer.copy h input).1 .null ⟨input.data, input.size, input.size⟩ (input.used - o)) =
        (.outOfBound, (Buffer.copy h input).1, .null) := by
      unfold Buffer.append
      rw [if_pos]
      show input.used - o ≠ 0 ∧ input.size - input.size < input.used - o
      omega
    have hslice : (Buffer.append (slice h input o).1 .null (slice h input o).2 (input.used - o)).1 = .ok := by
      unfold Buffer.append
      rw [if_neg]
      · rfl
      · show ¬ (input.used - o ≠ 0 ∧ input.size - (input.offset + o) < input.used - o)
        omega
    unfold read take at hread
    rw [if_neg hend, if_neg (Nat.lt_irrefl _),
      tmpBuffer_far hle hlt (Nat.le_of_lt ho) (Nat.le_of_not_lt hnear)] at hread
    dsimp only at hread
    rw [htmp] at hread
    rcases hs : Buffer.append (slice h input o).1 .null (slice h input o).2 (input.used - o) with ⟨e, h1, d⟩
    rw [hs] at hslice hread
    obtain rfl : e = .ok := hslice
    cases hread
  · intro hnear
    have htmp := tmpBuffer_near (h := h) hle hlt (Nat.le_of_lt ho) hnear
    refine ⟨fun dst ch extend => ?_, fun dst chs extend => ?_, fun dst length hlen => ?_⟩
    · rw [readUntil_eq, if_neg hend, htmp]
    · rw [readUntilSet_eq, if_neg hend, htmp]
    · unfold read
      rw [if_neg hend, if_neg (by omega), htmp]

end BufferReader

/-! ## The parser -/

namespace CmdParser

open BufferReader

/-- Where the reader is when `ParseRequest` has called its parser. -/
def requestPosition (far : Bytes) (h : Heap) (p : CmdParser) (cmd : Cmd) : Nat :=
  if eof p.inputb p.inputbr then p.inputbr
  else
    let type := if p.parseType = .none then
        (if current h p.inputb p.inputbr = 42 then .multibulk else .inline)
      else p.parseType
    if type = .multibulk then
      (MultibulkParser.handleRequest far p.multibulkParser h p.inputb p.inputbr cmd).2.2.2.2
    else (InlineParser.handleRequest h p.inputb p.inputbr cmd).2.2.2

/-- Where it is when `ParseResponse` has. -/
def responsePosition (far : Bytes) (h : Heap) (p : CmdParser) (resp : Buffer) : Nat :=
  if eof p.inputb p.inputbr then p.inputbr
  else
    let type := if p.parseType = .none then Wire.CmdParser.responseType (current h p.inputb p.inputbr)
      else p.parseType
    if type = .none then p.inputbr
    else if type = .multibulk then
      (MultibulkParser.handleResponse far p.multibulkParser h p.inputb p.inputbr resp).2.2.2.2
    else (InlineParser.handleResponse h p.inputb p.inputbr resp).2.2.2

theorem handOver_inputb (p : CmdParser) (o : Nat) :
    (p.handOver o).inputb = if p.inputbr = o then p.inputb else p.inputb.offsetBy (int32 o) 0 := by
  unfold handOver
  split <;> rfl

theorem request_handOver (far : Bytes) (h : Heap) (p : CmdParser) (cmd : Cmd) :
    (p.parseRequest far h cmd).2.2.1.inputb = (p.handOver (p.requestPosition far h cmd)).inputb := by
  rw [handOver_inputb]
  unfold parseRequest requestPosition
  split
  · rw [if_pos rfl]
  · dsimp only
    generalize (if p.parseType = .none then _ else p.parseType) = type
    split
    · exact handOver_inputb _ _
    · exact handOver_inputb _ _

theorem response_handOver (far : Bytes) (h : Heap) (p : CmdParser) (resp : Buffer) :
    (p.parseResponse far h resp).2.2.1.inputb = (p.handOver (p.responsePosition far h resp)).inputb := by
  rw [handOver_inputb]
  unfold parseResponse responsePosition
  split
  · rw [if_pos rfl]
  · dsimp only
    generalize (if p.parseType = .none then _ else p.parseType) = type
    split
    · rw [if_pos rfl]
    · split
      · exact handOver_inputb _ _
      · exact handOver_inputb _ _

theorem requestPosition_le {p : CmdParser} (hs : p.inputb.Seated) (h0 : p.inputbr = 0) (far : Bytes) (h : Heap)
    (cmd : Cmd) : p.requestPosition far h cmd ≤ p.inputb.used := by
  unfold requestPosition
  split
  · omega
  · dsimp only
    generalize (if p.parseType = .none then _ else p.parseType) = type
    split
    · exact (MultibulkParser.handleRequest_onward far _ h p.inputb p.inputbr cmd).1.within hs (by omega)
    · exact (InlineParser.requestLoop_onward p.inputb _ h cmd p.inputbr .null).1.within hs (by omega)

theorem responsePosition_le {p : CmdParser} (hs : p.inputb.Seated) (h0 : p.inputbr = 0) (far : Bytes) (h : Heap)
    (resp : Buffer) : p.responsePosition far h resp ≤ p.inputb.used := by
  unfold responsePosition
  split
  · omega
  · dsimp only
    generalize (if p.parseType = .none then _ else p.parseType) = type
    split
    · omega
    · split
      · exact (MultibulkParser.handleResponse_onward far _ h p.inputb p.inputbr resp).within hs (by omega)
      · exact (InlineParser.handleResponse_onward h p.inputb p.inputbr resp).within hs (by omega)

/-- What was consumed is gone from the input, and no more. -/
theorem handOver_dropped {p : CmdParser} (hb : p.inputb.Shaped h) (hlt : p.inputb.size < 2 ^ 32) (h0 : p.inputbr = 0)
    (hn : n ≤ p.inputb.used) :
    p.inputb.Dropped (p.handOver n).inputb n ↔ n < 2 ^ 31 ∨ n = p.inputb.used := by
  unfold handOver
  rw [h0]
  split
  · rename_i hnone
    subst hnone
    exact iff_of_true (fun _ => rfl) (Or.inl (by norm_num))
  · exact dropped_iff hb hlt hn

end CmdParser

/-- `Offset`, the reads and the hand-over of a parser do as exact arithmetic does for the positions below 2^31,
    and where all is consumed; for no others. -/
theorem offsets_iff (hs : h.Sane) (hb : b.Valid h) :
    (∀ n ≤ b.used, b.Dropped (b.offsetBy (int32 n) 0) n ↔ n < 2 ^ 31 ∨ n = b.used) ∧
    (∀ o < b.used, BufferReader.ReadsAt h b o ↔ o < 2 ^ 31) ∧
    ∀ p : CmdParser, p.inputb = b → p.inputbr = 0 →
      (∀ far cmd, p.requestPosition far h cmd ≤ b.used ∧
        (b.Dropped (p.parseRequest far h cmd).2.2.1.inputb (p.requestPosition far h cmd) ↔
          p.requestPosition far h cmd < 2 ^ 31 ∨ p.requestPosition far h cmd = b.used)) ∧
      ∀ far resp, p.responsePosition far h resp ≤ b.used ∧
        (b.Dropped (p.parseResponse far h resp).2.2.1.inputb (p.responsePosition far h resp) ↔
          p.responsePosition far h resp < 2 ^ 31 ∨ p.responsePosition far h resp = b.used) := by
  have hle := hb.shaped.offset_le
  have hlt : b.size < 2 ^ 32 := Nat.lt_of_le_of_lt hb.shaped.size_le (hb.capacity_lt hs)
  refine ⟨fun n hn => dropped_iff hb.shaped hlt hn, fun o ho => BufferReader.reads_at_iff hle hlt ho, ?_⟩
  rintro p rfl h0
  refine ⟨fun far cmd => ?_, fun far resp => ?_⟩
  · have hn := CmdParser.requestPosition_le ⟨hle, hlt⟩ h0 far h cmd
    rw [CmdParser.request_handOver]
    exact ⟨hn, CmdParser.handOver_dropped hb.shaped hlt h0 hn⟩
  · have hn := CmdParser.responsePosition_le ⟨hle, hlt⟩ h0 far h resp
    rw [CmdParser.response_handOver]
    exact ⟨hn, CmdParser.handOver_dropped hb.shaped hlt h0 hn⟩

/-- The buffer `abc`: all of it consumed, and a read of its second byte. -/
theorem offsets_iff_short :
    let h := (Buffer.ofBytes (.start fun _ => some fun _ => 0) [97, 98, 99]).2
    let b : Buffer := ⟨some 0, 3, 0⟩
    (b.Dropped (b.offsetBy (int32 3) 0) 3 ↔ 3 < 2 ^ 31 ∨ 3 = b.used) ∧ (BufferReader.ReadsAt h b 1 ↔ 1 < 2 ^ 31) := by
  intro h b
  have hs : h.Sane := Buffer.sane_ofBytes (Heap.sane_start _) _
  have hiff := offsets_iff hs (b := b) ⟨fun a ha => by cases ha; decide, by decide, by decide⟩
  exact ⟨hiff.1 3 (by decide), hiff.2.1 1 (by decide)⟩

/-- The last byte of 2^31 and one: a read there finds nothing. -/
theorem last_byte_unread :
    ¬ ∀ (h : Heap) (b : Buffer), h.Sane → b.Valid h → b.used ≤ 2 ^ 32 - 9 →
      ∀ o < b.used, BufferReader.ReadsAt h b o := by
  intro hall
  have hs := (Heap.sane_start fun _ => some fun _ => 0).allocRef (2 ^ 31 + 1)
  have hreads := hall _ ⟨some 0, 2 ^ 31 + 1, 0⟩ hs ⟨fun a ha => by cases ha; decide, by decide, by decide⟩ (by decide)
    (2 ^ 31) (by decide)
  have hnear := (BufferReader.reads_at_iff (by decide) (by decide) (by decide)).mp hreads
  exact absurd hnear (by decide)

end RedisProxy.Mem
