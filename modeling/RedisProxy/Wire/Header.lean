/-
  RedisProxy.Wire.Header — the number on a header line, and the memory behind the line.

  `readInt32` cuts the line out as a slice of the input's block and gives it to
  `ParseInt32`, which drops the slice's length: `atoi` runs from the second byte on until
  a byte ends the number, in the line or behind it. A line with anything but blanks in
  it ends the number itself, since LF is no digit. On a blank line `atoi` skips the LF
  with the other blanks and takes the number from what comes next: the next line, a
  payload, or the part of the block nothing has been received into.

  Proved:
  - `stored_blank`: on a blank line the number is the one that starts behind the line.
  - `selfContained_iff`: the number is the line's own exactly if the line is one byte long
    or has a byte behind its first that is no blank.
  - `blank_header`: the line `*\r\n` reads as what comes next.
-/

import RedisProxy.Wire.Request

namespace RedisProxy.Wire

open Lib.Decimal

/-- A header line: any bytes, ended by the first LF. -/
structure HeaderLine where
  body : Bytes
  noLF : LF ∉ body

namespace HeaderLine

open MultibulkParser

def bytes (line : HeaderLine) : Bytes := line.body ++ [LF]

/-- The integer `readInt32` leaves behind a reader that has passed `pre`: the line is
    followed by `rest` in the input and by `beyond` in the block. -/
def stored (line : HeaderLine) (pre rest beyond : Bytes) (i : Int) (pbuf : Option Bytes) : Int :=
  (readInt32 beyond i (.after pre (line.bytes ++ rest)) pbuf).2.1

/-- Whatever lies behind the line, the integer is the same. -/
def SelfContained (line : HeaderLine) : Prop :=
  ∀ (pre rest rest' beyond beyond' : Bytes) (i : Int) (pbuf : Option Bytes),
    line.stored pre rest beyond i pbuf = line.stored pre rest' beyond' i pbuf

variable (line : HeaderLine) {pre rest beyond : Bytes} {i : Int} {pbuf : Option Bytes}

theorem stored_near (h : pre.length < 2 ^ 31) :
    line.stored pre rest beyond i pbuf = parseInt32 line.bytes 1 (rest ++ beyond) := by
  have hr := readInt32_line beyond i pbuf h line.noLF rest
  rw [stored, bytes, List.append_assoc, List.singleton_append, hr]

/-- Where nothing is found the integer stays. -/
theorem stored_far (h : ¬ pre.length < 2 ^ 31) : line.stored pre rest beyond i pbuf = i := by
  have hne : line.bytes ++ rest ≠ [] := by simp [bytes]
  rw [stored, readInt32_far beyond i pbuf h hne]

/-- `ParseInt32` of a line with a byte for its marker. -/
theorem parseInt32_marked {b : Byte} {t : Bytes} (h : line.body = b :: t) (s : Bytes) :
    parseInt32 line.bytes 1 s = atoi (t ++ [LF] ++ s) := by
  have hlen : ¬ line.bytes.length ≤ 1 := by simp [bytes, h]
  rw [parseInt32, if_neg hlen, bytes, h]
  rfl

/-- A blank line hands the reading on to what comes next. -/
theorem stored_blank {b : Byte} {t : Bytes} (hb : line.body = b :: t) (ht : ∀ c ∈ t, isSpace c = true)
    (h : pre.length < 2 ^ 31) : line.stored pre rest beyond i pbuf = atoi (rest ++ beyond) := by
  have hblank : ∀ c ∈ t ++ [LF], isSpace c = true := by
    intro c hc
    rcases List.mem_append.mp hc with hc | hc
    · exact ht c hc
    · rw [List.mem_singleton.mp hc]; rfl
  rw [stored_near line h, parseInt32_marked line hb, atoi_blanks hblank]

/-- A line with something on it ends its number. -/
theorem stored_settled {b : Byte} {t : Bytes} (hb : line.body = b :: t) (ht : ∃ c ∈ t, isSpace c = false)
    (h : pre.length < 2 ^ 31) : line.stored pre rest beyond i pbuf = atoi (t ++ [LF]) := by
  rw [stored_near line h, parseInt32_marked line hb, atoi_settled ((settled_line t).mpr ht)]

theorem settled_selfContained {b : Byte} {t : Bytes} (hb : line.body = b :: t) (ht : ∃ c ∈ t, isSpace c = false) :
    line.SelfContained := by
  intro pre rest rest' beyond beyond' i pbuf
  by_cases h : pre.length < 2 ^ 31
  · rw [stored_settled line hb ht h, stored_settled line hb ht h]
  · rw [stored_far line h, stored_far line h]

/-- A header value is its own line's exactly where the line is LF alone or more than blanks
    follow its first byte. -/
theorem selfContained_iff :
    line.SelfContained ↔ line.body = [] ∨ ∃ b ∈ line.body.drop 1, isSpace b = false := by
  cases hb : line.body with
  | nil =>
    refine iff_of_true ?_ (Or.inl rfl)
    intro pre rest rest' beyond beyond' i pbuf
    have hlen : line.bytes.length ≤ 1 := by simp [bytes, hb]
    by_cases h : pre.length < 2 ^ 31
    · rw [stored_near line h, stored_near line h, parseInt32, parseInt32, if_pos hlen, if_pos hlen]
    · rw [stored_far line h, stored_far line h]
  | cons b t =>
    rw [List.drop_succ_cons, List.drop_zero]
    constructor
    · intro hself
      right
      by_contra hno
      -- the line is blank: it reads 1 before a 1, and 2 before a 2
      have hblank : ∀ c ∈ t, isSpace c = true := by
        intro c hc
        cases hs : isSpace c with
        | true => rfl
        | false => exact absurd ⟨c, hc, hs⟩ hno
      have hsame := hself [] [49] [50] [] [] 0 none
      rw [stored_blank line hb hblank (by decide), stored_blank line hb hblank (by decide)] at hsame
      revert hsame
      decide
    · rintro (hnil | hsome)
      · cases hnil
      · exact settled_selfContained line hb hsome

/-- `*\r\n` in front of a payload byte `1`, and of a `2`. -/
theorem blank_header : ¬ ∀ line : HeaderLine, line.SelfContained := by
  intro h
  have hsame := h ⟨[42, CR], by decide⟩ [] [49] [50] [] [] 0 none
  revert hsame
  decide

end HeaderLine

end RedisProxy.Wire
