/-
  RedisProxy.Wire.Buffer — error codes, buffers and the buffer reader (error.h,
  buffer.cpp, buffer_reader.cpp, utils.cpp).

  A buffer is its contents, `Data()[0, Size())`. Two buffers that share a block have
  equal contents here and allocation succeeds; what is kept of the layout is what the
  reader can see of it:
  - `Offset(start)` takes its start as an int32. A block holds fewer than 2^32 bytes,
    so a start of 2^31 or more arrives negative, wraps past `size_` and empties the
    buffer (`Buffer.offset`).
  - `Append(buffer, 0)` appends all of the buffer (`Buffer.append`).
  - `atoi` runs on an unterminated slice: it goes on into whatever lies behind the
    buffer's last byte. That memory is the argument `beyond`.

  Proved: what each reader operation does to a reader that has passed `pre` and has
  `rest` before it (`BufferReader.after`).
-/

import RedisProxy.Lib.Decimal

namespace RedisProxy.Wire

open Lib.Decimal

inductive Error where
  | ok
  | closed
  | empty
  | full
  | eof
  | tryAgain
  | initFailed
  | unknown
  | notImplemented
  | exhausted
  | outOfBound
  | notFound
  | sys (errno : Nat)
  deriving DecidableEq, Repr

def Error.code : Error → Int
  | ok => 0
  | closed => -10
  | empty => -100
  | full => -101
  | eof => -1
  | tryAgain => -303
  | initFailed => -500
  | unknown => -503
  | notImplemented => -405
  | exhausted => -502
  | outOfBound => -504
  | notFound => -404
  | sys errno => errno

/-- `String()`: the code in brackets; `Message()` is always null. -/
def Error.string (e : Error) : Bytes := 91 :: decimalInt e.code ++ [93]

/-! ## Buffer -/

def memchr (l : Bytes) (ch : Byte) : Option Nat := l.findIdx? (· == ch)

/-- `Offset(start)`. -/
def Buffer.offset (l : Bytes) (start : Nat) : Bytes := if start < 2 ^ 31 then l.drop start else []

/-- `Offset(0, -n)`. -/
def Buffer.trim (l : Bytes) (n : Nat) : Bytes := l.take (l.length - n)

/-- `Append(const Buffer&, size)`. -/
def Buffer.append (dst src : Bytes) (size : Nat) : Error × Bytes :=
  if size = 0 then (.ok, dst ++ src)
  else if src.length < size then (.outOfBound, dst)
  else (.ok, dst ++ src.take size)

/-- The `std::size_t` an int converts to. -/
def sizeT (x : Int) : Nat := (x % 2 ^ 64).toNat

/-- `ParseInt32`: `line` is the slice, `beyond` the memory behind it. -/
def parseInt32 (line : Bytes) (start : Nat) (beyond : Bytes) : Int :=
  if line.length ≤ start then 0 else atoi ((line ++ beyond).drop start)

/-! ## BufferReader -/

structure BufferReader where
  buffer : Bytes
  offset : Nat
  deriving DecidableEq, Repr

namespace BufferReader

def eof (r : BufferReader) : Bool := r.buffer.length ≤ r.offset

/-- `tmpBuffer`. -/
def rest (r : BufferReader) : Bytes := Buffer.offset r.buffer r.offset

/-- The tail both `ReadUntil`s share: the delimiter was found at `i`. -/
def take (r : BufferReader) (dst : Bytes) (i : Nat) : Error × Bytes × BufferReader :=
  match Buffer.append dst r.rest i with
  | (.ok, dst') => (.ok, dst', { r with offset := r.offset + i })
  | (e, _) => (e, dst, r)

/-- `ReadUntil(buffer, ch, extend)`. -/
def readUntil (r : BufferReader) (dst : Bytes) (ch : Byte) (extend : Nat) : Error × Bytes × BufferReader :=
  if r.eof then (.outOfBound, dst, r)
  else match memchr r.rest ch with
    | none => (.notFound, dst, r)
    | some i => r.take dst (i + extend)

/-- `ReadUntil(buffer, chs)`: the first of `chs` that occurs at all decides. -/
def readUntilAny (r : BufferReader) (dst : Bytes) (chs : List Byte) : Error × Bytes × BufferReader :=
  if r.eof then (.outOfBound, dst, r)
  else match chs.findSome? (memchr r.rest) with
    | none => (.notFound, dst, r)
    | some i => r.take dst i

def read (r : BufferReader) (dst : Bytes) (length : Nat) : Error × Bytes × BufferReader :=
  if r.eof then (.outOfBound, dst, r)
  else if r.buffer.length - r.offset < length then (.outOfBound, dst, r)
  else r.take dst length

/-- `Next(1)`. -/
def next (r : BufferReader) : BufferReader := if r.eof then r else { r with offset := r.offset + 1 }

def current (r : BufferReader) : Byte := if r.eof then 0 else r.buffer.getD r.offset 0

def last (r : BufferReader) : Byte := if r.offset = 0 then 0 else r.buffer.getD (r.offset - 1) 0

/-- The reader has passed `pre`; `rest` is before it. -/
def after (pre rest : Bytes) : BufferReader := ⟨pre ++ rest, pre.length⟩

end BufferReader

/-! ## Searching -/

theorem memchr_none {l : Bytes} {ch : Byte} (h : ch ∉ l) : memchr l ch = none := by
  rw [memchr, List.findIdx?_eq_none_iff]
  intro x hx
  have : x ≠ ch := fun e => h (e ▸ hx)
  simpa using this

theorem memchr_found {l : Bytes} {ch : Byte} (s : Bytes) (h : ch ∉ l) :
    memchr (l ++ ch :: s) ch = some l.length := by
  have hl := memchr_none h
  rw [memchr] at hl
  simp [memchr, List.findIdx?_append, List.findIdx?_cons, hl]

/-- A found delimiter is the first one. -/
theorem memchr_eq_some {l : Bytes} {ch : Byte} {i : Nat} (h : memchr l ch = some i) :
    ∃ line s, l = line ++ ch :: s ∧ ch ∉ line ∧ i = line.length := by
  by_cases hm : ch ∈ l
  · obtain ⟨as, bs, rfl, ha⟩ := List.eq_append_cons_of_mem hm
    rw [memchr_found bs ha] at h
    exact ⟨as, bs, rfl, ha, by injection h with h; exact h.symm⟩
  · rw [memchr_none hm] at h; cases h

/-! ## Reading -/

namespace BufferReader

variable {pre rest : Bytes}

@[simp] theorem after_offset (pre rest : Bytes) : (after pre rest).offset = pre.length := rfl
@[simp] theorem after_buffer (pre rest : Bytes) : (after pre rest).buffer = pre ++ rest := rfl

@[simp] theorem eof_after (pre rest : Bytes) : (after pre rest).eof = rest.isEmpty := by
  cases rest <;> simp [eof, after]

theorem rest_after (h : pre.length < 2 ^ 31) : (after pre rest).rest = rest := by
  rw [BufferReader.rest, after_offset, Buffer.offset, if_pos h]
  simp

theorem current_after (pre : Bytes) (b : Byte) (rest : Bytes) : (after pre (b :: rest)).current = b := by
  simp [current]

theorem take_after (h : pre.length < 2 ^ 31) (dst : Bytes) {s : Bytes} (hs : s ≠ []) (rest : Bytes) :
    (after pre (s ++ rest)).take dst s.length = (.ok, dst ++ s, after (pre ++ s) rest) := by
  have h0 : s.length ≠ 0 := by simpa using hs
  rw [take, rest_after h, Buffer.append, if_neg h0, if_neg (by simp)]
  simp [after]

theorem readUntil_nil (pre dst : Bytes) (ch : Byte) (e : Nat) :
    (after pre []).readUntil dst ch e = (.outOfBound, dst, after pre []) := by
  simp [readUntil]

theorem readUntil_none (h : pre.length < 2 ^ 31) (dst : Bytes) {ch : Byte} (e : Nat) (hr : rest ≠ [])
    (hc : ch ∉ rest) :
    (after pre rest).readUntil dst ch e = (.notFound, dst, after pre rest) := by
  rw [readUntil, rest_after h, memchr_none hc]
  simp [hr]

theorem readUntil_found (h : pre.length < 2 ^ 31) (dst : Bytes) {ch : Byte} {line : Bytes}
    (rest : Bytes) (hc : ch ∉ line) :
    (after pre (line ++ ch :: rest)).readUntil dst ch 1 =
      (.ok, dst ++ (line ++ [ch]), after (pre ++ (line ++ [ch])) rest) := by
  have ht := take_after h dst (s := line ++ [ch]) (by simp) rest
  simp only [List.append_assoc, List.singleton_append, List.length_append, List.length_singleton] at ht
  rw [readUntil, rest_after h, memchr_found rest hc]
  simp [ht]

theorem read_nil (pre dst : Bytes) (n : Nat) :
    (after pre []).read dst n = (.outOfBound, dst, after pre []) := by
  simp [read]

theorem read_short (pre dst : Bytes) {n : Nat} (h : rest.length < n) :
    (after pre rest).read dst n = (.outOfBound, dst, after pre rest) := by
  simp [read, h]

theorem read_found (h : pre.length < 2 ^ 31) (dst : Bytes) {s : Bytes} (hs : s ≠ []) (rest : Bytes) :
    (after pre (s ++ rest)).read dst s.length = (.ok, dst ++ s, after (pre ++ s) rest) := by
  rw [read, take_after h dst hs]
  simp [hs]

/-- `Append(buffer, 0)`: everything is read, and nothing is passed. -/
theorem read_zero (h : pre.length < 2 ^ 31) (h0 : rest ≠ []) :
    (after pre rest).read [] 0 = (.ok, rest, .after pre rest) := by
  rw [read, take, rest_after h]
  simp only [eof_after, List.isEmpty_iff, h0, if_false, Nat.not_lt_zero, Buffer.append,
    if_true, List.nil_append,
    Nat.add_zero]

/-- Any other number of bytes. -/
theorem read_some (h : pre.length < 2 ^ 31) {n : Nat} (h0 : n ≠ 0) (hn : n ≤ rest.length) :
    (after pre rest).read [] n =
    (.ok, rest.take n, .after (pre ++ rest.take n) (rest.drop n)) := by
  have hlen : (rest.take n).length = n := by rw [List.length_take]; omega
  have hne : rest.take n ≠ [] := by
    intro e; rw [e] at hlen; exact h0 hlen.symm
  have hr := read_found h [] hne (rest.drop n)
  rwa [hlen, List.take_append_drop, List.nil_append] at hr

/-! ## What an `OK` says -/

variable {dst buf : Bytes} {r' : BufferReader}

theorem rest_far (h : ¬ pre.length < 2 ^ 31) : (after pre rest).rest = [] := by
  rw [BufferReader.rest, after_offset, Buffer.offset, if_neg h]

theorem readUntil_ok {ch : Byte} (h : (after pre rest).readUntil dst ch 1 = (.ok, buf, r')) :
    pre.length < 2 ^ 31 ∧ ∃ line s, rest = line ++ ch :: s ∧ ch ∉ line ∧ buf = dst ++ (line ++ [ch]) ∧
      r' = after (pre ++ (line ++ [ch])) s := by
  by_cases h0 : rest = []
  · subst h0; rw [readUntil_nil] at h; cases h
  have hne : (after pre rest).eof = false := by rw [eof_after]; simpa using h0
  by_cases hp : pre.length < 2 ^ 31
  · refine ⟨hp, ?_⟩
    by_cases hm : ch ∈ rest
    · obtain ⟨line, s, rfl, hl⟩ := List.eq_append_cons_of_mem hm
      rw [readUntil_found hp dst s hl] at h
      simp only [Prod.mk.injEq] at h
      exact ⟨line, s, rfl, hl, h.2.1.symm, h.2.2.symm⟩
    · rw [readUntil_none hp dst 1 h0 hm] at h; cases h
  · rw [readUntil, rest_far hp, hne] at h
    cases h

theorem read_ok {n : Nat} (h0 : n ≠ 0) (h : (after pre rest).read dst n = (.ok, buf, r')) :
    pre.length < 2 ^ 31 ∧ ∃ d s, rest = d ++ s ∧ d.length = n ∧ buf = dst ++ d ∧ r' = after (pre ++ d) s := by
  have hn : n ≤ rest.length := by
    by_contra hlt
    rw [read_short pre dst (Nat.lt_of_not_le hlt)] at h
    cases h
  have hd : (rest.take n).length = n := by rw [List.length_take]; omega
  have hd0 : rest.take n ≠ [] := fun e => h0 (by rw [← hd, e]; rfl)
  by_cases hp : pre.length < 2 ^ 31
  · have hr := read_found hp dst hd0 (rest.drop n)
    rw [hd, List.take_append_drop, h] at hr
    simp only [Prod.mk.injEq] at hr
    exact ⟨hp, rest.take n, rest.drop n, (List.take_append_drop n rest).symm, hd, hr.2.1, hr.2.2⟩
  · have hne : (after pre rest).eof = false := by
      rw [eof_after]; cases rest with
      | nil => simp at hn; exact absurd hn h0
      | cons b s => rfl
    have hap : Buffer.append dst [] n = (.outOfBound, dst) := by
      rw [Buffer.append, if_neg h0, if_pos (show ([] : Bytes).length < n from Nat.pos_of_ne_zero h0)]
    rw [read, hne, take, rest_far hp, hap] at h
    split at h
    · cases h
    · split at h <;> cases h

end BufferReader

end RedisProxy.Wire
