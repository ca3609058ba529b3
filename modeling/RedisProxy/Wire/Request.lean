/-
  RedisProxy.Wire.Request — the multibulk request parser against its grammar.

  `encode argv` is what `FormatRESP2` writes (`formatRESP2_eq`): a count line, then for
  each argument a header line, the bytes and a line end.

  The parser's position in that grammar is its three counters and the unread bytes
  (`Suspended argv p`: the state it waits in once the prefix `p` has been delivered). A
  call on one more chunk moves it to the position of the longer prefix
  (`parseRequest_part`) or, when the chunk completes the command, returns the arguments
  and leaves what follows (`parseRequest_whole`). One position cannot be told from
  another: after the header of an empty argument the saved length is 0, which says
  that the header has not been read (`InEmpty`).

  Proved:
  - `parseRequest_part`: a call short of the end of the command moves the position, and
    returns `OutOfBound` where the input ends at an argument's start (`AtBoundary`),
    `TryAgain` elsewhere.
  - `parseRequest_whole`: the call that brings the end returns the command.
  - `request_roundtrip`: a command and anything after it, given to a reset parser in one
    call.
-/

import RedisProxy.Wire.Parser
import RedisProxy.Lib.Pieces

namespace RedisProxy.Wire

open Lib.Decimal Lib.Pieces

/-! ## The grammar -/

def crlf : Bytes := [CR, LF]

/-- A marker, a number, a line end. -/
def numLine (mark : Byte) (i : Int) : Bytes := mark :: decimalInt i ++ crlf

def header (a : Bytes) : Bytes := numLine 36 a.length

def encodeArg (a : Bytes) : Bytes := header a ++ (a ++ crlf)

def countLine (argv : Cmd) : Bytes := numLine 42 argv.length

def encode (argv : Cmd) : Bytes := countLine argv ++ argv.flatMap encodeArg

theorem decimalInt_natCast (n : Nat) : decimalInt n = decimal n := by
  simp [decimalInt]

theorem formatArg_eq (buffer a : Bytes) : Cmd.formatArg buffer a = buffer ++ encodeArg a := by
  simp [Cmd.formatArg, encodeArg, header, numLine, crlf, decimalInt_natCast]

theorem formatRESP2_eq (argv : Cmd) (buffer : Bytes) : argv.formatRESP2 buffer = buffer ++ encode argv := by
  have h : ∀ (as : Cmd) (b : Bytes), as.foldl Cmd.formatArg b = b ++ as.flatMap encodeArg := by
    intro as
    induction as with
    | nil => intro b; simp
    | cons a as ih => intro b; rw [List.foldl_cons, ih, formatArg_eq]; simp
  rw [Cmd.formatRESP2, h]
  simp [encode, countLine, numLine, crlf, decimalInt_natCast]

/-- A line without its LF. -/
def numText (mark : Byte) (i : Int) : Bytes := mark :: decimalInt i ++ [CR]

theorem numLine_eq (mark : Byte) (i : Int) : numLine mark i = numText mark i ++ [LF] := by
  simp [numLine, numText, crlf]

theorem decimalInt_ne_lf (i : Int) : LF ∉ decimalInt i := by
  have h : ∀ n, LF ∉ decimal n := fun n hm => by have := decimal_digits n LF hm; cases this
  unfold decimalInt
  split
  · rw [List.mem_cons, not_or]; exact ⟨by decide, h _⟩
  · exact h _

theorem numText_ne_lf {mark : Byte} (i : Int) (hm : mark ≠ LF) : LF ∉ numText mark i := by
  simp only [numText, List.cons_append, List.mem_cons, List.mem_append, List.not_mem_nil, or_false, not_or]
  exact ⟨fun e => hm e.symm, decimalInt_ne_lf i, by decide⟩

theorem int32_natCast {n : Nat} (h : n < 2 ^ 31) : int32 n = n := int32_of_range (by omega) (by omega)

/-- The number on a line, as the parser stores it. -/
theorem parseInt32_numLine (mark : Byte) {n : Nat} (hn : n < 2 ^ 32) (s : Bytes) :
    parseInt32 (numLine mark n) 1 s = int32 n := by
  have hlen : ¬ (numLine mark n).length ≤ 1 := by simp [numLine, crlf]
  rw [parseInt32, if_neg hlen]
  simp only [numLine, crlf, decimalInt_natCast, List.cons_append, List.drop_succ_cons, List.drop_zero,
    List.append_assoc]
  rw [atoi_decimal_all n _ (by decide), min_eq_right (by omega)]

theorem int32_wrap {x : Int} (h1 : 2 ^ 31 ≤ x) (h2 : x < 2 ^ 32) : int32 x = x - 2 ^ 32 := by
  simp only [int32, Int.bmod]
  split <;> omega

namespace MultibulkParser

variable {pre rest w : Bytes} (beyond : Bytes) (i : Int) (pbuf : Option Bytes)

/-- A size is the length and the line end, where that is not negative and an int32. -/
theorem readSize_range {len : Int} (h1 : -2 ≤ len) (h2 : len + 2 < 2 ^ 31) : (readSize len : Int) = len + 2 := by
  rw [readSize, int32_of_range (by omega) h2, sizeT]
  omega

theorem readSize_of_lt {n : Nat} (h : n + 2 < 2 ^ 31) : readSize n = n + 2 := by
  have hsize := readSize_range (show -2 ≤ (n : Int) by omega) (by omega)
  omega

/-- A length that does not leave room for the line end becomes a size no buffer has. -/
theorem readSize_short {n : Nat} (hn : n < 2 ^ 32 - 2) (hw : w.length < n + 2) :
    w.length < readSize (int32 n) := by
  by_cases h1 : n + 2 < 2 ^ 31
  · rw [int32_natCast (by omega), readSize_of_lt h1]; exact hw
  by_cases h2 : n < 2 ^ 31
  · rw [int32_natCast h2, readSize, int32_wrap (by omega) (by omega), sizeT]
    omega
  · rw [int32_wrap (by omega) (by omega), readSize, int32_of_range (by omega) (by omega), sizeT]
    omega

/-- A negative size is one no buffer has, but for the two least. -/
theorem readSize_negative {len : Int} (h1 : -2 ^ 31 ≤ len) (h2 : len ≤ -3) : 2 ^ 31 ≤ readSize len := by
  rw [readSize, int32_of_range (by omega) (by omega), sizeT]
  omega

/-- The same for a length without room for the line end. -/
theorem readSize_wrap {len : Int} (h1 : 2 ^ 31 ≤ len + 2) (h2 : len < 2 ^ 31) : 2 ^ 31 ≤ readSize len := by
  rw [readSize, int32_wrap (by omega) (by omega), sizeT]
  omega

theorem parseInt32_range (line : Bytes) (start : Nat) (s : Bytes) :
    -2 ^ 31 ≤ parseInt32 line start s ∧ parseInt32 line start s < 2 ^ 31 := by
  rw [parseInt32]
  split
  · decide
  · exact int32_range _

/-! ## Reading a line -/

theorem readInt32_nil : readInt32 beyond i (.after pre []) pbuf = (.outOfBound, i, pbuf, .after pre []) := by
  simp [readInt32, BufferReader.readUntil_nil]

theorem readInt32_part (h : pre.length < 2 ^ 31) (hw : w ≠ []) (hl : LF ∉ w) :
    readInt32 beyond i (.after pre w) pbuf = (.tryAgain, i, pbuf, .after pre w) := by
  rw [readInt32, BufferReader.readUntil_none h _ _ hw hl]

/-- No line end: nothing is read, and the number stays. -/
theorem readInt32_unended (h : pre.length < 2 ^ 31) (hl : LF ∉ w) :
    ∃ e, e ≠ .ok ∧ readInt32 beyond i (.after pre w) pbuf = (e, i, pbuf, .after pre w) := by
  by_cases h0 : w = []
  · rw [h0]
    exact ⟨.outOfBound, Error.noConfusion, readInt32_nil beyond i pbuf⟩
  · exact ⟨.tryAgain, Error.noConfusion, readInt32_part beyond i pbuf h h0 hl⟩

/-- From 2^31 on the start arrives negative, and nothing is found. -/
theorem readInt32_far (h : ¬ pre.length < 2 ^ 31) (hw : w ≠ []) :
    readInt32 beyond i (.after pre w) pbuf = (.tryAgain, i, pbuf, .after pre w) := by
  have hne : (BufferReader.after pre w).eof = false := by simp [hw]
  have hr : (BufferReader.after pre w).readUntil [] LF 1 = (.notFound, [], .after pre w) := by
    rw [BufferReader.readUntil, BufferReader.rest_far h, hne]
    rfl
  rw [readInt32, hr]

theorem readInt32_line (h : pre.length < 2 ^ 31) {line : Bytes} (hl : LF ∉ line) (rest : Bytes) :
    readInt32 beyond i (.after pre (line ++ LF :: rest)) pbuf =
      (.ok, parseInt32 (line ++ [LF]) 1 (rest ++ beyond), pbuf.map (· ++ (line ++ [LF])),
        .after (pre ++ (line ++ [LF])) rest) := by
  rw [readInt32, BufferReader.readUntil_found h _ _ hl]
  simp

theorem readInt32_numLine (h : pre.length < 2 ^ 31) {mark : Byte} (hm : mark ≠ LF) {n : Nat} (hn : n < 2 ^ 32)
    (rest : Bytes) :
    readInt32 beyond i (.after pre (numLine mark n ++ rest)) pbuf =
      (.ok, int32 n, pbuf.map (· ++ numLine mark n), .after (pre ++ numLine mark n) rest) := by
  have hl := readInt32_line beyond i pbuf h (numText_ne_lf n hm) rest
  rw [← numLine_eq, parseInt32_numLine mark hn] at hl
  rw [← hl, numLine_eq]
  simp

/-- Nothing, or no line end yet. -/
theorem readInt32_proper (h : pre.length < 2 ^ 31) {mark : Byte} (hm : mark ≠ LF) {n : Int}
    (hw : Proper w (numLine mark n)) :
    readInt32 beyond i (.after pre w) pbuf =
      (if w = [] then .outOfBound else .tryAgain, i, pbuf, .after pre w) := by
  by_cases hw0 : w = []
  · subst hw0; rw [readInt32_nil, if_pos rfl]
  · rw [if_neg hw0]
    rw [numLine_eq] at hw
    exact readInt32_part beyond i pbuf h hw0 (hw.not_mem (numText_ne_lf n hm))

/-- A number comes from a line that is all there. -/
theorem readInt32_ok {v : Int} {q : Option Bytes} {r' : BufferReader}
    (h : readInt32 beyond i (.after pre w) pbuf = (.ok, v, q, r')) :
    pre.length < 2 ^ 31 ∧ ∃ line s, w = line ++ LF :: s ∧ LF ∉ line ∧
      v = parseInt32 (line ++ [LF]) 1 (s ++ beyond) ∧
      q = pbuf.map (· ++ (line ++ [LF])) ∧ r' = .after (pre ++ (line ++ [LF])) s := by
  unfold readInt32 at h
  split at h
  · rename_i buf r1 hr
    obtain ⟨hp, line, s, rfl, hl, _, _⟩ := BufferReader.readUntil_ok hr
    rw [BufferReader.readUntil_found hp [] s hl] at hr
    simp only [Prod.mk.injEq, true_and, List.nil_append] at hr h
    refine ⟨hp, line, s, rfl, hl, ?_, ?_, ?_⟩
    · rw [← h.1, ← hr.1, ← hr.2]; simp
    · rw [← h.2.1, ← hr.1]
    · rw [← h.2.2, ← hr.2]
  · cases h
  · rename_i hno _ _
    simp only [Prod.mk.injEq] at h
    exact (hno h.1).elim

/-! ## The argument loop -/

variable {m : MultibulkParser} {cmd : Cmd} {r r' : BufferReader} {len : Int}

/-- The parser past `k` more arguments, at a header. -/
def past (m : MultibulkParser) (k : Nat) : MultibulkParser :=
  { m with multibulkIndex := m.multibulkIndex + k, bulkLen := 0 }

theorem past_zero (hb : m.bulkLen = 0) : past m 0 = m := by
  cases m; simp_all [past]

theorem past_past (m : MultibulkParser) (j k : Nat) : past (past m j) k = past m (j + k) := by
  simp [past, Int.add_assoc]

theorem requestLoop_read {p : Option Bytes} {buf : Bytes} {r0 : BufferReader} (n : Nat)
    (hl : readLen beyond m.bulkLen r0 none = (.ok, len, p, r))
    (hr : r.read [] (readSize len) = (.ok, buf, r')) :
    requestLoop beyond (n + 1) m cmd r0 =
      requestLoop beyond n (past m 1) (cmd ++ [Buffer.trim buf 2]) r' := by
  rw [requestLoop, hl]; simp only [hr]; rfl

theorem requestLoop_wait {p : Option Bytes} {buf : Bytes} {r0 : BufferReader} (n : Nat)
    (hl : readLen beyond m.bulkLen r0 none = (.ok, len, p, r))
    (hr : r.read [] (readSize len) = (.outOfBound, buf, r')) :
    requestLoop beyond (n + 1) m cmd r0 = (.tryAgain, { m with bulkLen := len }, cmd, r') := by
  rw [requestLoop, hl]; simp only [hr]

theorem requestLoop_fail {p : Option Bytes} {e : Error} {r0 : BufferReader} (n : Nat) (he : e ≠ .ok)
    (hl : readLen beyond m.bulkLen r0 none = (e, len, p, r)) :
    requestLoop beyond (n + 1) m cmd r0 = (e, { m with bulkLen := len }, cmd, r) := by
  rw [requestLoop, hl]
  cases e <;> first | exact absurd rfl he | rfl

theorem trim_crlf (a : Bytes) : Buffer.trim (a ++ crlf) 2 = a := by
  simp [Buffer.trim, crlf]

theorem length_encodeArg (a : Bytes) : (encodeArg a).length = (header a).length + (a.length + 2) := by
  simp [encodeArg, crlf]

theorem read_payload {a : Bytes} (h : pre.length < 2 ^ 31) (ha : a.length + 2 < 2 ^ 31) (rest : Bytes) :
    (BufferReader.after pre (a ++ crlf ++ rest)).read [] (readSize a.length) =
      (.ok, a ++ crlf, .after (pre ++ (a ++ crlf)) rest) := by
  have hr := BufferReader.read_found h [] (s := a ++ crlf) (by simp [crlf]) rest
  rwa [show (a ++ crlf).length = a.length + 2 by simp [crlf], ← readSize_of_lt ha, List.nil_append] at hr

theorem readLen_header {a : Bytes} (h : pre.length < 2 ^ 31) (ha : a.length < 2 ^ 32) (rest : Bytes) :
    readLen beyond 0 (.after pre (header a ++ rest)) none =
      (.ok, int32 a.length, none, .after (pre ++ header a) rest) := by
  rw [readLen, if_pos rfl, header, readInt32_numLine _ _ _ h (by decide) ha]
  rfl

/-- An argument that is all there. -/
theorem requestLoop_arg {a : Bytes} (h : pre.length + (encodeArg a).length < 2 ^ 31)
    (hb : m.bulkLen = 0) (n : Nat)
    (rest : Bytes) :
    requestLoop beyond (n + 1) m cmd (.after pre (encodeArg a ++ rest)) =
      requestLoop beyond n (past m 1) (cmd ++ [a]) (.after (pre ++ encodeArg a) rest) := by
  rw [length_encodeArg] at h
  have hl := readLen_header beyond (a := a) (show pre.length < 2 ^ 31 by omega) (by omega) (a ++ crlf ++ rest)
  rw [int32_natCast (by omega)] at hl
  have hp : (pre ++ header a).length < 2 ^ 31 := by rw [List.length_append]; omega
  have hr := read_payload (a := a) hp (by omega) rest
  have he : encodeArg a ++ rest = header a ++ (a ++ crlf ++ rest) := by simp [encodeArg]
  rw [he, requestLoop_read beyond n (by rw [hb]; exact hl) hr, trim_crlf]
  simp [encodeArg]

/-- The loop passes any number of arguments that are all there. -/
theorem requestLoop_args (as : Cmd) :
    ∀ (pre : Bytes) (m : MultibulkParser) (cmd : Cmd) (n : Nat) (rest : Bytes),
    pre.length + (as.flatMap encodeArg).length < 2 ^ 31 → m.bulkLen = 0 →
    requestLoop beyond (as.length + n) m cmd (.after pre (as.flatMap encodeArg ++ rest)) =
      requestLoop beyond n (past m as.length) (cmd ++ as) (.after (pre ++ as.flatMap encodeArg) rest) := by
  induction as with
  | nil => intro pre m cmd n rest _ hb; simp [past_zero hb]
  | cons a as ih =>
    intro pre m cmd n rest h hb
    rw [List.flatMap_cons, List.length_append] at h
    rw [List.flatMap_cons, List.append_assoc, List.length_cons, Nat.add_right_comm,
      requestLoop_arg beyond (by omega) hb,
      ih _ _ _ _ _ (by rw [List.length_append]; omega) rfl, past_past]
    simp [Nat.add_comm 1]

/-- A payload whose header an earlier call read. -/
theorem requestLoop_payload {a : Bytes} (h : pre.length < 2 ^ 31) (ha : a.length + 2 < 2 ^ 31) (h0 : a ≠ [])
    (hb : m.bulkLen = a.length) (n : Nat) (rest : Bytes) :
    requestLoop beyond (n + 1) m cmd (.after pre (a ++ crlf ++ rest)) =
      requestLoop beyond n (past m 1) (cmd ++ [a]) (.after (pre ++ (a ++ crlf)) rest) := by
  have hl : readLen beyond m.bulkLen (.after pre (a ++ crlf ++ rest)) none =
      (.ok, (a.length : Int), none, .after pre (a ++ crlf ++ rest)) := by
    rw [readLen, if_neg (by simpa [hb] using h0), hb]
  rw [requestLoop_read beyond n hl (read_payload h ha rest), trim_crlf]

/-- The header is not all there. -/
theorem requestLoop_header_part {a : Bytes} (h : pre.length < 2 ^ 31) (hb : m.bulkLen = 0)
    (hw : Proper w (header a)) (n : Nat) :
    requestLoop beyond (n + 1) m cmd (.after pre w) =
      (if w = [] then .outOfBound else .tryAgain, m, cmd, .after pre w) := by
  have hl : readLen beyond m.bulkLen (.after pre w) none =
      (if w = [] then .outOfBound else .tryAgain, 0, none, .after pre w) := by
    rw [hb, readLen, if_pos rfl]; exact readInt32_proper beyond 0 none h (by decide) hw
  rw [requestLoop_fail beyond n (by split <;> simp) hl, ← hb]

/-- The header is there, the payload is not all there. -/
theorem requestLoop_payload_part {a : Bytes} (h : pre.length < 2 ^ 31) (ha : a.length < 2 ^ 32 - 2)
    (hb : m.bulkLen = 0)
    (hw : Proper w (a ++ crlf)) (n : Nat) :
    requestLoop beyond (n + 1) m cmd (.after pre (header a ++ w)) =
      (.tryAgain, { m with bulkLen := int32 a.length }, cmd, .after (pre ++ header a) w) := by
  have hs := BufferReader.read_short (pre ++ header a) []
    (readSize_short ha (w := w) (by simpa [crlf] using hw.length_lt))
  exact requestLoop_wait beyond n (by rw [hb]; exact readLen_header beyond h (by omega) w) hs

/-- An earlier call read the header, the payload is still not all there. -/
theorem requestLoop_payload_wait {a : Bytes} (ha : a.length < 2 ^ 32 - 2) (hb : m.bulkLen = int32 a.length)
    (h0 : m.bulkLen ≠ 0) (hw : Proper w (a ++ crlf)) (n : Nat) :
    requestLoop beyond (n + 1) m cmd (.after pre w) = (.tryAgain, m, cmd, .after pre w) := by
  have hs := BufferReader.read_short pre [] (readSize_short ha (w := w) (by simpa [crlf] using hw.length_lt))
  have hl : readLen beyond m.bulkLen (.after pre w) none = (.ok, int32 a.length, none, .after pre w) := by
    rw [readLen, if_neg h0, hb]
  rw [requestLoop_wait beyond n hl hs, ← hb]

/-- How the loop leaves on a proper prefix `u` of its arguments: it has passed `done` and
    waits in the header or in the payload of the next one. -/
theorem requestLoop_part {as : Cmd} {u : Bytes} (cmd : Cmd) (h : pre.length + u.length < 2 ^ 31)
    (has : ∀ a ∈ as, a.length < 2 ^ 32 - 2)
    (hb : m.bulkLen = 0) (hu : Proper u (as.flatMap encodeArg)) :
    ∃ done a todo w, as = done ++ a :: todo ∧
      ((Proper w (header a) ∧ u = done.flatMap encodeArg ++ w ∧
        requestLoop beyond as.length m cmd (.after pre u) =
          (if w = [] then .outOfBound else .tryAgain, past m done.length, cmd ++ done,
            .after (pre ++ done.flatMap encodeArg) w)) ∨
      (Proper w (a ++ crlf) ∧ u = done.flatMap encodeArg ++ (header a ++ w) ∧
        requestLoop beyond as.length m cmd (.after pre u) =
          (.tryAgain, { past m done.length with bulkLen := int32 a.length }, cmd ++ done,
            .after (pre ++ (done.flatMap encodeArg ++ header a)) w))) := by
  obtain ⟨done, a, todo, w, rfl, rfl, hw⟩ := proper_flatMap hu
  rw [List.length_append] at h
  have hlen : (done ++ a :: todo).length = done.length + (todo.length + 1) := by simp
  have ha := has a (by simp)
  rcases proper_append hw with hh | ⟨v, rfl, hv⟩
  · refine ⟨done, a, todo, w, rfl, Or.inl ⟨hh, rfl, ?_⟩⟩
    rw [hlen, requestLoop_args beyond done _ _ _ _ _ (by omega) hb,
      requestLoop_header_part beyond (by rw [List.length_append]; omega) rfl hh]
  · refine ⟨done, a, todo, v, rfl, Or.inr ⟨hv, rfl, ?_⟩⟩
    rw [hlen, requestLoop_args beyond done _ _ _ _ _ (by omega) hb,
      requestLoop_payload_part beyond (by rw [List.length_append]; omega) ha rfl hv]
    simp

/-- The first call of a command: the count line is there. -/
theorem handleRequest_count {argv : Cmd} (hn : argv.length < 2 ^ 31) (cmd : Cmd) (rest : Bytes) :
    handleRequest beyond .reset cmd (.after [] (countLine argv ++ rest)) =
      requestLoop beyond argv.length ⟨argv.length, 0, 0⟩ cmd (.after (countLine argv) rest) := by
  have hl : readLen beyond 0 (.after [] (countLine argv ++ rest)) none =
      (.ok, (argv.length : Int), none, .after (countLine argv) rest) := by
    rw [readLen, if_pos rfl, countLine, readInt32_numLine _ _ _ (by simp) (by decide) (by omega),
      int32_natCast hn]
    rfl
  rw [handleRequest]
  simp only [reset, hl, Int.sub_zero, Int.toNat_natCast]

/-- A later call: the count is known. -/
theorem handleRequest_resume {n i k : Nat} (hn : n ≠ 0) (hk : n = i + k) (b : Int) (cmd : Cmd)
    (r : BufferReader) :
    handleRequest beyond ⟨n, i, b⟩ cmd r = requestLoop beyond k ⟨n, i, b⟩ cmd r := by
  rw [handleRequest, readLen, if_neg (by simpa using hn)]
  simp only
  congr 1
  omega

end MultibulkParser

/-! ## One call -/

namespace CmdParser

variable {beyond : Bytes}

/-- A parser waiting in argument `i` of `n` with saved length `b`. -/
def waiting (n i : Nat) (b : Int) (unread : Bytes) : CmdParser := ⟨.multibulk, ⟨n, i, b⟩, unread, 0⟩

theorem handOver_after (type : ParseType) (m : MultibulkParser) {pre rest input : Bytes}
    (h : pre.length < 2 ^ 31)
    (hi : input = pre ++ rest) : handOver ⟨type, m, input, 0⟩ (.after pre rest) = ⟨type, m, rest, 0⟩ := by
  subst hi
  unfold handOver
  split
  · rename_i h0
    rw [List.length_eq_zero_iff.mp h0.symm, List.nil_append]
  · simp only [BufferReader.after_offset, Buffer.offset, if_pos h, List.drop_left]

/-- From 2^31 on, what the reader has passed takes the rest along. -/
theorem handOver_far (type : ParseType) (m : MultibulkParser) {pre rest input : Bytes}
    (h : ¬ pre.length < 2 ^ 31) :
    handOver ⟨type, m, input, 0⟩ (.after pre rest) = ⟨type, m, [], 0⟩ := by
  have h0 : ¬ 0 = pre.length := by omega
  have hfar : Buffer.offset input pre.length = [] := if_neg h
  simp [handOver, h0, hfar]

/-- All of the input has been passed. -/
theorem handOver_end (type : ParseType) (m : MultibulkParser) (pre : Bytes) :
    handOver ⟨type, m, pre, 0⟩ (.after pre []) = ⟨type, m, [], 0⟩ := by
  by_cases h : pre.length < 2 ^ 31
  · exact handOver_after type m h (List.append_nil pre).symm
  · exact handOver_far type m h

theorem parseRequest_nil (type : ParseType) (m : MultibulkParser) (cmd : Cmd) :
    parseRequest beyond ⟨type, m, [], 0⟩ cmd = (.tryAgain, ⟨type, m, [], 0⟩, cmd) := by
  simp [parseRequest, BufferReader.eof]

/-- What `ParseRequest` makes of `HandleRequest`, in multibulk mode. -/
theorem parseRequest_handle {type : ParseType} (m : MultibulkParser) (cmd : Cmd) {input : Bytes}
    (ht : type = .multibulk ∨ type = .none ∧ input.head? = some 42) (h0 : input ≠ []) :
    parseRequest beyond ⟨type, m, input, 0⟩ cmd =
      ((m.handleRequest beyond cmd (.after [] input)).1,
        handOver ⟨.multibulk, (m.handleRequest beyond cmd (.after [] input)).2.1, input, 0⟩
          (m.handleRequest beyond cmd (.after [] input)).2.2.2,
        (m.handleRequest beyond cmd (.after [] input)).2.2.1) := by
  obtain ⟨b, s, rfl⟩ := List.exists_cons_of_ne_nil h0
  have hc : (⟨b :: s, 0⟩ : BufferReader).current = b := BufferReader.current_after [] b s
  have ht' : (if type = .none then (if b = 42 then .multibulk else .inline) else type) =
      ParseType.multibulk := by
    rcases ht with rfl | ⟨rfl, hb⟩
    · simp
    · simp only [List.head?_cons, Option.some.injEq] at hb
      simp [hb]
  simp only [parseRequest, hc, ht', if_true]
  simp [BufferReader.eof, BufferReader.after]

theorem parseRequest_multibulk {type : ParseType} {m m' : MultibulkParser} {cmd cmd' : Cmd}
    {input : Bytes} (pre rest : Bytes) {e : Error}
    (ht : type = .multibulk ∨ type = .none ∧ input.head? = some 42) (h0 : input ≠ [])
    (h : pre.length < 2 ^ 31)
    (hi : input = pre ++ rest) (hr : m.handleRequest beyond cmd (.after [] input) =
      (e, m', cmd', .after pre rest)) :
    parseRequest beyond ⟨type, m, input, 0⟩ cmd = (e, ⟨.multibulk, m', rest, 0⟩, cmd') := by
  rw [parseRequest_handle m cmd ht h0, hr, handOver_after .multibulk m' h hi]

end CmdParser

/-! ## Positions -/

/-- `p` ends where the next byte belongs to the header of an argument. -/
def AtBoundary (argv : Cmd) (p : Bytes) : Prop :=
  ∃ done a todo, argv = done ++ a :: todo ∧ p = countLine argv ++ done.flatMap encodeArg

/-- `p` ends inside an empty argument, after its header line; `todo` are the arguments behind it. -/
def InEmpty (argv : Cmd) (p : Bytes) (todo : Cmd) : Prop :=
  ∃ done w, argv = done ++ [] :: todo ∧ Proper w crlf ∧
    p = countLine argv ++ (done.flatMap encodeArg ++ (header [] ++ w))

/-- The state the parser waits in after the prefix `p` of `encode argv`. -/
inductive Suspended (argv : Cmd) : Bytes → CmdParser → Cmd → Prop
  | count {u : Bytes} : Proper u (countLine argv) →
      Suspended argv u ⟨if u = [] then .none else .multibulk, .reset, u, 0⟩ []
  | header {done todo : Cmd} {a w : Bytes} : argv = done ++ a :: todo → Proper w (header a) →
      Suspended argv (countLine argv ++ (done.flatMap encodeArg ++ w))
        (.waiting argv.length done.length 0 w) done
  | payload {done todo : Cmd} {a w : Bytes} : argv = done ++ a :: todo → Proper w (a ++ crlf) →
      Suspended argv (countLine argv ++ (done.flatMap encodeArg ++ (header a ++ w)))
        (.waiting argv.length done.length (int32 a.length) w) done

theorem countLine_ne_nil (argv : Cmd) : countLine argv ≠ [] := by simp [countLine, numLine]
theorem header_ne_nil (a : Bytes) : header a ≠ [] := by simp [header, numLine]
theorem crlf_ne_nil : crlf ≠ [] := by simp [crlf]

theorem suspended_init (argv : Cmd) : Suspended argv [] .init [] :=
  .count (proper_nil (countLine_ne_nil argv))

theorem encode_split {argv done as : Cmd} (h : argv = done ++ as) :
    encode argv = countLine argv ++ (done.flatMap encodeArg ++ as.flatMap encodeArg) := by
  subst h; simp [encode]

theorem encodeArg_ne_nil (a : Bytes) : encodeArg a ≠ [] := by simp [encodeArg, header_ne_nil]

/-- A boundary is the start of an argument, not a place inside one. -/
theorem atBoundary_inside {argv done todo : Cmd} {a w : Bytes} (h : argv = done ++ a :: todo)
    (hw : Proper w (encodeArg a))
    (hb : AtBoundary argv (countLine argv ++ (done.flatMap encodeArg ++ w))) : w = [] := by
  obtain ⟨done', a', todo', h', e⟩ := hb
  have e : done.flatMap encodeArg ++ w = done'.flatMap encodeArg ++ [] := by
    rw [List.append_nil]; exact List.append_cancel_left e
  exact (split_unique (h.symm.trans h') e hw (proper_nil (encodeArg_ne_nil a'))).2.2.2

/-- The size of a command bounds its count and its lengths. -/
theorem length_lt_encode (argv : Cmd) : 2 * argv.length < (encode argv).length := by
  have h : ∀ as : Cmd, 2 * as.length ≤ (as.flatMap encodeArg).length := by
    intro as
    induction as with
    | nil => simp
    | cons a as ih =>
      rw [List.flatMap_cons, List.length_append, List.length_cons, MultibulkParser.length_encodeArg]
      omega
  have h1 := h argv
  have h2 := List.length_pos_iff.mpr (countLine_ne_nil argv)
  rw [encode, List.length_append]
  omega

theorem arg_length_lt {argv : Cmd} {a : Bytes} (h : a ∈ argv) : a.length + 2 < (encode argv).length := by
  obtain ⟨done, todo, rfl⟩ := List.append_of_mem h
  have h2 := List.length_pos_iff.mpr (header_ne_nil a)
  rw [encode_split rfl, List.flatMap_cons]
  simp only [List.length_append, MultibulkParser.length_encodeArg]
  omega

/-- The count and the lengths as the parser can tell them from other numbers. -/
structure Sizes (argv : Cmd) : Prop where
  count : argv.length < 2 ^ 31
  arg : ∀ a ∈ argv, a.length < 2 ^ 32 - 2

theorem sizes_of_lt {argv : Cmd} (h : (encode argv).length < 2 ^ 32) : Sizes argv := by
  have hn := length_lt_encode argv
  refine ⟨by omega, fun a ha => ?_⟩
  have := arg_length_lt ha
  omega

/-! ## A call that does not complete the command -/

/-- What a call that meets the end of the input, `q` delivered, returns: `OutOfBound` if
    that is an edge, `TryAgain` otherwise; and the position it leaves. -/
structure Stops (pos : Bytes → CmdParser → Cmd → Prop) (edge : Bytes → Prop) (q : Bytes)
    (res : Error × CmdParser × Cmd) : Prop where
  pos : pos q res.2.1 res.2.2
  err : res.1 = .tryAgain ∨ res.1 = .outOfBound
  boundary : res.1 = .outOfBound ↔ edge q

section Part

variable {argv : Cmd} {beyond : Bytes}

/-- A call that reaches the arguments `as` and finds the proper prefix `u` of them. -/
theorem stops_loop {m : MultibulkParser} {type : ParseType} {cmd : Cmd} {input pre u : Bytes} (done as : Cmd)
    (hlen : Sizes argv) (hargv : argv = done ++ as)
    (ht : type = .multibulk ∨ type = .none ∧ input.head? = some 42) (h0 : input ≠ []) (hi : input = pre ++ u)
    (hpos : input.length < 2 ^ 31) (hu : Proper u (as.flatMap encodeArg))
    (hr : m.handleRequest beyond cmd (.after [] input) =
      MultibulkParser.requestLoop beyond as.length ⟨argv.length, done.length, 0⟩ done (.after pre u)) :
    Stops (Suspended argv) (AtBoundary argv) (countLine argv ++ (done.flatMap encodeArg ++ u))
      (CmdParser.parseRequest beyond ⟨type, m, input, 0⟩ cmd) := by
  have has : ∀ a ∈ as, a.length < 2 ^ 32 - 2 :=
    fun a ha => hlen.arg a (by rw [hargv]; exact List.mem_append_right _ ha)
  have hpu : pre.length + u.length < 2 ^ 31 := by rw [hi, List.length_append] at hpos; exact hpos
  obtain ⟨d, a, todo, w, has', hc⟩ := MultibulkParser.requestLoop_part beyond
    (m := ⟨argv.length, done.length, 0⟩) done hpu has rfl hu
  have hargv' : argv = (done ++ d) ++ a :: todo := by rw [hargv, has']; simp
  rcases hc with ⟨hw, rfl, hl⟩ | ⟨hw, rfl, hl⟩
  · rw [List.length_append] at hpu
    rw [CmdParser.parseRequest_multibulk (pre ++ d.flatMap encodeArg) w ht h0
      (by rw [List.length_append]; omega) (by rw [hi, List.append_assoc]) (by rw [hr, hl])]
    have hq : countLine argv ++ (done.flatMap encodeArg ++ (d.flatMap encodeArg ++ w)) =
        countLine argv ++ ((done ++ d).flatMap encodeArg ++ w) := by simp
    rw [hq]
    refine ⟨?_, ?_, ?_⟩
    · have := Suspended.header hargv' hw
      simpa [MultibulkParser.past, CmdParser.waiting] using this
    · show (if w = [] then Error.outOfBound else .tryAgain) = .tryAgain ∨ _ = Error.outOfBound
      split <;> simp
    · show (if w = [] then Error.outOfBound else .tryAgain) = .outOfBound ↔ _
      constructor
      · intro he
        have hw0 : w = [] := by
          by_contra hne; rw [if_neg hne] at he; cases he
        exact ⟨done ++ d, a, todo, hargv', by rw [hw0, List.append_nil]⟩
      · intro hb
        rw [if_pos (atBoundary_inside hargv' (hw.append_right _) hb)]
  · rw [List.length_append, List.length_append] at hpu
    rw [CmdParser.parseRequest_multibulk (pre ++ (d.flatMap encodeArg ++ header a)) w ht h0
      (by simp only [List.length_append]; omega) (by rw [hi]; simp only [List.append_assoc]) (by rw [hr, hl])]
    have hq : countLine argv ++ (done.flatMap encodeArg ++ (d.flatMap encodeArg ++ (header a ++ w))) =
        countLine argv ++ ((done ++ d).flatMap encodeArg ++ (header a ++ w)) := by simp
    rw [hq]
    refine ⟨?_, Or.inl rfl, ?_⟩
    · have := Suspended.payload hargv' hw
      simpa [MultibulkParser.past, CmdParser.waiting] using this
    · constructor
      · intro he; cases he
      · intro hb
        have := atBoundary_inside hargv' (hw.append_left (header a)) hb
        simp [header_ne_nil] at this

theorem not_atBoundary_of_count {u : Bytes} (h : Proper u (countLine argv)) : ¬ AtBoundary argv u := by
  rintro ⟨done, a, todo, _, rfl⟩
  have := h.length_lt
  rw [List.length_append] at this
  omega

theorem suspended_proper {p : Bytes} {P : CmdParser} {cmd : Cmd} (hs : Suspended argv p P cmd) :
    Proper p (encode argv) := by
  cases hs with
  | count h => exact h.append_right _
  | header hd hw =>
    rw [encode_split hd, List.flatMap_cons]
    exact ((Proper.append_right (hw.append_right _) _).append_left _).append_left _
  | payload hd hw =>
    rw [encode_split hd, List.flatMap_cons]
    exact ((Proper.append_right (hw.append_left _) _).append_left _).append_left _

/-- `p` inside argument `a`, before its LF: no boundary. -/
theorem not_atBoundary_of_payload {done todo : Cmd} {a w : Bytes} (hd : argv = done ++ a :: todo)
    (hw : Proper w (a ++ crlf)) :
    ¬ AtBoundary argv (countLine argv ++ (done.flatMap encodeArg ++ (header a ++ w))) := by
  intro hb
  have := atBoundary_inside hd (hw.append_left (header a)) hb
  exact header_ne_nil a (List.append_eq_nil_iff.mp this).1

theorem int32_length_eq_zero {a : Bytes} (h : a.length < 2 ^ 32) : int32 a.length = 0 ↔ a = [] := by
  constructor
  · intro h0
    by_cases h1 : a.length < 2 ^ 31
    · rw [int32_natCast h1] at h0
      exact List.eq_nil_of_length_eq_zero (by omega)
    · rw [int32_wrap (by omega) (by omega)] at h0
      omega
  · rintro rfl; decide

theorem head_encode {p : Bytes} (hp : p ≠ []) (h : p <+: encode argv) : p.head? = some 42 := by
  obtain ⟨t, ht⟩ := h
  obtain ⟨b, s, rfl⟩ := List.exists_cons_of_ne_nil hp
  have : b = 42 := (List.cons.inj ht).1
  rw [this]; rfl

/-- A call that finds the count line not all there yet, or all there and more. -/
theorem stops_count {u c : Bytes} (hlen : Sizes argv)
    (h0 : u ++ c ≠ []) (hpos : (u ++ c).length < 2 ^ 31) (hp : Proper (u ++ c) (encode argv)) :
    Stops (Suspended argv) (AtBoundary argv) (u ++ c)
      (CmdParser.parseRequest beyond ⟨if u = [] then .none else .multibulk, .reset, u ++ c, 0⟩ []) := by
  have hty : (if u = [] then ParseType.none else .multibulk) = .multibulk ∨
      (if u = [] then ParseType.none else .multibulk) = .none ∧ (u ++ c).head? = some 42 := by
    split
    · exact Or.inr ⟨rfl, head_encode h0 hp.isPrefix⟩
    · exact Or.inl rfl
  rcases proper_append hp with hcount | ⟨v, hv, hvp⟩
  · have hl := MultibulkParser.readInt32_proper beyond 0 none
      (show ([] : Bytes).length < 2 ^ 31 by decide) (by decide) hcount
    rw [if_neg h0] at hl
    have hr : MultibulkParser.handleRequest beyond .reset [] (.after [] (u ++ c)) =
        (.tryAgain, .reset, [], .after [] (u ++ c)) := by
      rw [MultibulkParser.handleRequest, MultibulkParser.readLen, MultibulkParser.reset, if_pos rfl, hl]
    rw [CmdParser.parseRequest_multibulk [] _ hty h0 (by simp) rfl hr]
    have hs := Suspended.count hcount
    rw [if_neg h0] at hs
    exact ⟨hs, Or.inl rfl, iff_of_false (by simp) (not_atBoundary_of_count hcount)⟩
  · have hr := MultibulkParser.handleRequest_count beyond hlen.count [] v
    rw [← hv] at hr
    have hs := stops_loop (u := v) [] argv hlen rfl hty h0 hv hpos hvp hr
    simpa [hv] using hs

/-- A call that goes on at the header of argument `a`. -/
theorem stops_header {done todo : Cmd} {a w c : Bytes} (hd : argv = done ++ a :: todo) (hlen : Sizes argv)
    (h0 : w ++ c ≠ []) (hpos : (w ++ c).length < 2 ^ 31)
    (hu : Proper (w ++ c) ((a :: todo).flatMap encodeArg)) :
    Stops (Suspended argv) (AtBoundary argv) (countLine argv ++ (done.flatMap encodeArg ++ (w ++ c)))
      (CmdParser.parseRequest beyond (.waiting argv.length done.length 0 (w ++ c)) done) := by
  have hk : argv.length = done.length + (a :: todo).length := by rw [hd]; simp
  have hr := MultibulkParser.handleRequest_resume beyond (by rw [hk]; simp) hk 0 done (.after [] (w ++ c))
  exact stops_loop done (a :: todo) hlen hd (Or.inl rfl) h0 (List.nil_append _).symm hpos hu hr

/-- A call that leaves the parser in the payload of `a`, where it was. -/
theorem stops_stay {done todo : Cmd} {a w : Bytes} (hd : argv = done ++ a :: todo) (h0 : w ≠ [])
    (hw : Proper w (a ++ crlf))
    (hr : MultibulkParser.requestLoop beyond (todo.length + 1)
      ⟨argv.length, done.length, int32 a.length⟩ done (.after [] w) =
      (.tryAgain, ⟨argv.length, done.length, int32 a.length⟩, done, .after [] w)) :
    Stops (Suspended argv) (AtBoundary argv) (countLine argv ++ (done.flatMap encodeArg ++ (header a ++ w)))
      (CmdParser.parseRequest beyond (.waiting argv.length done.length (int32 a.length) w) done) := by
  have hk : argv.length = done.length + (todo.length + 1) := by rw [hd]; simp
  rw [← MultibulkParser.handleRequest_resume beyond (by omega) hk] at hr
  rw [CmdParser.waiting, CmdParser.parseRequest_multibulk [] _ (Or.inl rfl) h0 (by simp) rfl hr]
  exact ⟨.payload hd hw, Or.inl rfl, iff_of_false (by simp) (not_atBoundary_of_payload hd hw)⟩

/-- A call that goes on in the payload of `a`. -/
theorem stops_payload {done todo : Cmd} {a w c : Bytes} (hd : argv = done ++ a :: todo)
    (hE : a = [] → todo = [])
    (hlen : Sizes argv) (h0 : w ++ c ≠ []) (hpos : (w ++ c).length < 2 ^ 31)
    (hu : Proper (w ++ c) (a ++ crlf ++ todo.flatMap encodeArg)) :
    Stops (Suspended argv) (AtBoundary argv)
      (countLine argv ++ (done.flatMap encodeArg ++ (header a ++ (w ++ c))))
      (CmdParser.parseRequest beyond (.waiting argv.length done.length (int32 a.length) (w ++ c)) done) := by
  have ha := hlen.arg a (by rw [hd]; simp)
  by_cases ha0 : a = []
  · -- the saved length 0 reads as a header, and what is left of this one has no LF
    obtain rfl := hE ha0
    subst ha0
    have hu' : Proper (w ++ c) ([] ++ crlf) := by simpa using hu
    have hl := MultibulkParser.readInt32_part beyond 0 none (show ([] : Bytes).length < 2 ^ 31 by decide) h0
      (hu'.not_mem (l := [CR]) (b := LF) (by decide))
    exact stops_stay hd h0 hu' (MultibulkParser.requestLoop_fail beyond 0 (by decide) hl)
  generalize hb : int32 a.length = b
  have hb0 : b ≠ 0 := fun e => ha0 ((int32_length_eq_zero (by omega)).mp (hb.trans e))
  rcases proper_append hu with hu' | ⟨v, hv, hvp⟩
  · rw [← hb]
    refine stops_stay hd h0 hu' ?_
    rw [hb]
    exact MultibulkParser.requestLoop_payload_wait beyond (by omega) hb.symm hb0 hu' _
  · have hal : a.length + 2 < 2 ^ 31 := by
      rw [hv] at hpos
      simp only [List.length_append, crlf, List.length_cons, List.length_nil] at hpos
      omega
    have hd' : argv = (done ++ [a]) ++ todo := by rw [hd]; simp
    have hk : argv.length = done.length + (todo.length + 1) := by rw [hd]; simp
    have hbl : b = a.length := hb.symm.trans (int32_natCast (by omega))
    have hr : MultibulkParser.handleRequest beyond ⟨argv.length, done.length, b⟩ done (.after [] (w ++ c)) =
        MultibulkParser.requestLoop beyond todo.length ⟨argv.length, (done ++ [a]).length, 0⟩
          (done ++ [a]) (.after (a ++ crlf) v) := by
      rw [MultibulkParser.handleRequest_resume beyond (by omega) hk, hv,
        MultibulkParser.requestLoop_payload beyond (by simp) hal ha0 hbl]
      simp [MultibulkParser.past]
    have hs := stops_loop (done ++ [a]) todo hlen hd' (Or.inl rfl) h0 hv hpos hvp hr
    rw [hv]
    rw [hv] at hs
    simpa [CmdParser.waiting, encodeArg] using hs

/-- A call on one more chunk, short of the end of the command. The position moves with
    the prefix unless it is inside an empty argument that others follow. -/
theorem parseRequest_part {p c : Bytes} {P : CmdParser} {cmd : Cmd} (hs : Suspended argv p P cmd)
    (hE : ∀ todo, InEmpty argv p todo → todo = []) (hlen : Sizes argv)
    (hpos : (P.inputb ++ c).length < 2 ^ 31) (hp : Proper (p ++ c) (encode argv))
    (hc : c = [] → ¬ AtBoundary argv p) :
    Stops (Suspended argv) (AtBoundary argv) (p ++ c) (CmdParser.parseRequest beyond (P.feed c) cmd) := by
  by_cases h0 : P.inputb ++ c = []
  · obtain ⟨hP, rfl⟩ := List.append_eq_nil_iff.mp h0
    have hP' : P.feed [] = ⟨P.parseType, P.multibulkParser, [], 0⟩ ∧ P.feed [] = P := by
      cases hs <;> simp_all [CmdParser.waiting, CmdParser.feed]
    rw [hP'.1, CmdParser.parseRequest_nil, ← hP'.1, hP'.2, List.append_nil]
    exact ⟨hs, Or.inl rfl, by simpa using hc rfl⟩
  cases hs with
  | count => exact stops_count hlen h0 hpos hp
  | header hd hw =>
    rw [encode_split hd] at hp
    simp only [List.append_assoc, proper_append_left] at hp ⊢
    exact stops_header hd hlen h0 hpos hp
  | @payload _ todo a w hd hw =>
    have hE' : a = [] → todo = [] := by
      rintro rfl
      exact hE todo ⟨_, w, hd, hw, rfl⟩
    rw [encode_split hd, List.flatMap_cons, encodeArg] at hp
    simp only [List.append_assoc, proper_append_left] at hp ⊢
    exact stops_payload hd hE' hlen h0 hpos (by simpa using hp)

/-! ## A call that completes it -/

/-- The parser that has returned `argv`. -/
def returned (argv : Cmd) (rest : Bytes) : CmdParser := ⟨.multibulk, ⟨argv.length, argv.length, 0⟩, rest, 0⟩

/-- A call that reaches the arguments `as` and finds them all. -/
theorem returns_loop {as : Cmd} {m : MultibulkParser} {type : ParseType} {cmd : Cmd} {input pre rest : Bytes}
    (done : Cmd) (hargv : argv = done ++ as)
    (ht : type = .multibulk ∨ type = .none ∧ input.head? = some 42) (h0 : input ≠ [])
    (hi : input = pre ++ (as.flatMap encodeArg ++ rest))
    (hpos : pre.length + (as.flatMap encodeArg).length < 2 ^ 31)
    (hr : m.handleRequest beyond cmd (.after [] input) =
      MultibulkParser.requestLoop beyond as.length ⟨argv.length, done.length, 0⟩ done
        (.after pre (as.flatMap encodeArg ++ rest))) :
    CmdParser.parseRequest beyond ⟨type, m, input, 0⟩ cmd = (.ok, returned argv rest, argv) := by
  have hl := MultibulkParser.requestLoop_args beyond as pre
    ⟨argv.length, done.length, 0⟩ done 0 rest hpos rfl
  rw [Nat.add_zero, MultibulkParser.requestLoop] at hl
  rw [CmdParser.parseRequest_multibulk (pre ++ as.flatMap encodeArg) rest ht h0
    (by rw [List.length_append]; exact hpos)
    (by rw [hi, List.append_assoc]) (hr.trans hl)]
  simp [returned, MultibulkParser.past, hargv]

theorem returns_count {u c rest : Bytes} (hlen : (encode argv).length < 2 ^ 31) (hp : u ++ c = encode argv) :
    CmdParser.parseRequest beyond ⟨if u = [] then .none else .multibulk, .reset, u ++ (c ++ rest), 0⟩ [] =
      (.ok, returned argv rest, argv) := by
  have hn : argv.length < 2 ^ 31 := by have := length_lt_encode argv; omega
  have hi : u ++ (c ++ rest) = countLine argv ++ (argv.flatMap encodeArg ++ rest) := by
    rw [← List.append_assoc, hp, encode, List.append_assoc]
  have hr := MultibulkParser.handleRequest_count beyond hn [] (argv.flatMap encodeArg ++ rest)
  rw [← hi] at hr
  refine returns_loop [] rfl ?_ (by rw [hi]; simp [countLine_ne_nil]) hi
    (by rwa [encode, List.length_append] at hlen) hr
  split
  · exact Or.inr ⟨rfl, by rw [hi]; rfl⟩
  · exact Or.inl rfl

theorem returns_header {done todo : Cmd} {a u c rest : Bytes} (hd : argv = done ++ a :: todo)
    (hpos : (u ++ c).length < 2 ^ 31)
    (hu : u ++ c = (a :: todo).flatMap encodeArg) :
    CmdParser.parseRequest beyond (.waiting argv.length done.length 0 (u ++ (c ++ rest))) done =
      (.ok, returned argv rest, argv) := by
  have hk : argv.length = done.length + (a :: todo).length := by rw [hd]; simp
  have hi : u ++ (c ++ rest) = (a :: todo).flatMap encodeArg ++ rest := by rw [← List.append_assoc, hu]
  rw [hu] at hpos
  refine returns_loop done hd (Or.inl rfl) (by rw [hi]; simp [encodeArg_ne_nil])
    (hi.trans (List.nil_append _).symm) (by simpa using hpos) ?_
  rw [MultibulkParser.handleRequest_resume beyond (by rw [hk]; simp) hk, hi]

theorem returns_payload {done todo : Cmd} {a u c rest : Bytes} (hd : argv = done ++ a :: todo) (ha : a ≠ [])
    (hpos : (u ++ c).length < 2 ^ 31) (hu : u ++ c = a ++ crlf ++ todo.flatMap encodeArg) :
    CmdParser.parseRequest beyond
      (.waiting argv.length done.length (int32 a.length) (u ++ (c ++ rest))) done =
      (.ok, returned argv rest, argv) := by
  have hk : argv.length = done.length + (todo.length + 1) := by rw [hd]; simp
  have hi : u ++ (c ++ rest) = a ++ crlf ++ (todo.flatMap encodeArg ++ rest) := by
    rw [← List.append_assoc, hu, List.append_assoc]
  rw [hu, List.length_append] at hpos
  have hal : a.length + 2 < 2 ^ 31 := by
    rw [List.length_append, show crlf.length = 2 from rfl] at hpos
    omega
  generalize hb : int32 a.length = b
  have hbl : b = a.length := hb.symm.trans (int32_natCast (by omega))
  refine returns_loop (done ++ [a]) (by rw [hd]; simp) (Or.inl rfl) (by rw [hi]; simp [crlf]) hi hpos ?_
  rw [MultibulkParser.handleRequest_resume beyond (by omega) hk, hi,
    MultibulkParser.requestLoop_payload beyond (by simp) hal ha hbl]
  simp [MultibulkParser.past]

/-- The call that brings the end of the command returns it and leaves what follows. -/
theorem parseRequest_whole (beyond : Bytes) {p : Bytes} {P : CmdParser} {cmd : Cmd} (c rest : Bytes)
    (hs : Suspended argv p P cmd)
    (hE : ∀ todo, ¬ InEmpty argv p todo) (hpos : (P.inputb ++ c).length < 2 ^ 31)
    (hp : p ++ c = encode argv) :
    CmdParser.parseRequest beyond (P.feed (c ++ rest)) cmd = (.ok, returned argv rest, argv) := by
  cases hs with
  | count => exact returns_count (hp ▸ hpos) hp
  | header hd hw =>
    rw [encode_split hd] at hp
    simp only [List.append_assoc, List.append_cancel_left_eq] at hp
    exact returns_header hd hpos hp
  | @payload _ todo a w hd hw =>
    have ha : a ≠ [] := by
      rintro rfl
      exact hE todo ⟨_, w, hd, hw, rfl⟩
    rw [encode_split hd, List.flatMap_cons, encodeArg] at hp
    simp only [List.append_assoc, List.append_cancel_left_eq] at hp
    exact returns_payload hd ha hpos (by simpa [CmdParser.waiting] using hp)

end Part

/-! ## The round trip -/

/-- A reset parser given a command and anything after it. -/
theorem parseRequest_encode {argv : Cmd} (h : (encode argv).length < 2 ^ 31) (beyond rest : Bytes) :
    CmdParser.parseRequest beyond ⟨.none, .reset, encode argv ++ rest, 0⟩ [] =
      (.ok, returned argv rest, argv) :=
  returns_count (u := []) (c := encode argv) h (by simp)

/-- `FormatRESP2` and one `ParseRequest` are inverse, and no encoding starts another. -/
theorem request_roundtrip (argv : Cmd) (hsize : (argv.formatRESP2 []).length < 2 ^ 31) :
    (∀ beyond rest, ∃ m, CmdParser.parseRequest beyond ⟨.none, .reset, argv.formatRESP2 [] ++ rest, 0⟩ [] =
      (.ok, ⟨.multibulk, m, rest, 0⟩, argv)) ∧
    ∀ argv' : Cmd, (argv'.formatRESP2 []).length < 2 ^ 31 →
      argv.formatRESP2 [] <+: argv'.formatRESP2 [] → argv = argv' := by
  simp only [formatRESP2_eq, List.nil_append] at hsize ⊢
  constructor
  · intro beyond rest
    exact ⟨_, parseRequest_encode hsize beyond rest⟩
  · intro argv' hsize' hpre
    obtain ⟨t, ht⟩ := hpre
    have h := parseRequest_encode hsize [] t
    have h' := parseRequest_encode hsize' [] []
    rw [List.append_nil, ← ht, h] at h'
    exact congrArg (fun res => res.2.2) h'

/-- Two arguments, one empty, one that looks like a header. -/
theorem request_roundtrip_two :
    (Cmd.formatRESP2 [[], [36, 49, CR, LF]] []).length < 2 ^ 31 ∧
    ∃ m, CmdParser.parseRequest [] ⟨.none, .reset, Cmd.formatRESP2 [[], [36, 49, CR, LF]] [] ++ [42], 0⟩ [] =
      (.ok, ⟨.multibulk, m, [42], 0⟩, [[], [36, 49, CR, LF]]) :=
  ⟨by decide, (request_roundtrip [[], [36, 49, CR, LF]] (by decide)).1 [] [42]⟩

end RedisProxy.Wire
