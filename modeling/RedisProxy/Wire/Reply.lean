/-
  RedisProxy.Wire.Reply — reply values, and the reply parser against their grammar.

  The parser does not follow the grammar. A line reply ends at its LF; anything else is
  a number of items, the array's count or 1, and an item is a line and, when the line's
  number is positive, that many bytes and two more (`Flat`). So an element of an array
  is taken for such an item whatever it is: a nested array's elements are not counted, a
  positive integer swallows the bytes behind it, and an empty bulk string's line end is
  left over.

  Proved:
  - `responseLoop_flat` / `responseLoop_ok`: the loop returns `OK` on exactly the `Flat`
    texts, and appends what it passes.
  - `framed_iff`: a reply value is returned whole, whatever follows it, exactly if it is
    below 2^31 bytes and `Even`: no empty bulk string, and an array's elements are as
    many flat items as it has elements.
-/

import RedisProxy.Wire.Request

namespace RedisProxy.Wire

open Lib.Decimal Lib.Pieces

/-! ## Values -/

/-- The text of a line reply. -/
abbrev Line := { l : Bytes // CR ∉ l ∧ LF ∉ l }

inductive Reply where
  | simple (l : Line)
  | error (l : Line)
  | integer (i : Int)
  | nullBulk
  | bulk (b : Bytes)
  | nullArray
  | array (rs : List Reply)

mutual

def Reply.encode : Reply → Bytes
  | .simple l => 43 :: l.1 ++ crlf
  | .error l => 45 :: l.1 ++ crlf
  | .integer i => numLine 58 i
  | .nullBulk => numLine 36 (-1)
  | .bulk b => encodeArg b
  | .nullArray => numLine 42 (-1)
  | .array rs => numLine 42 rs.length ++ Reply.encodeAll rs

def Reply.encodeAll : List Reply → Bytes
  | [] => []
  | r :: rs => r.encode ++ Reply.encodeAll rs

end

/-- `n` items, each a line and, when the number read from it is positive, that many bytes
    and two more. The number is read with `after` behind the text. -/
inductive Flat (after : Bytes) : Nat → Bytes → Prop
  | nil : Flat after 0 []
  | line {n : Nat} {l s : Bytes} : LF ∉ l → parseInt32 (l ++ [LF]) 1 (s ++ after) ≤ 0 → Flat after n s →
      Flat after (n + 1) (l ++ LF :: s)
  | bulk {n : Nat} {l d s : Bytes} {v : Int} : LF ∉ l →
    parseInt32 (l ++ [LF]) 1 (d ++ s ++ after) = v → 0 < v →
      (d.length : Int) = v + 2 → Flat after n s → Flat after (n + 1) (l ++ LF :: (d ++ s))

/-- What the parser can frame with `after` behind it. -/
def Reply.Even (after : Bytes) : Reply → Prop
  | .bulk b => b ≠ []
  | .array rs => Flat after rs.length (Reply.encodeAll rs)
  | _ => True

/-- A reset parser given the reply and `rest` returns exactly the reply and leaves `rest`. -/
def Framed (r : Reply) (beyond rest : Bytes) : Prop :=
  ∃ P, CmdParser.parseResponse beyond ⟨.none, .reset, r.encode ++ rest, 0⟩ [] = (.ok, P, r.encode) ∧
    P.inputb = rest

/-! ## The item loop -/

namespace MultibulkParser

variable {pre rest : Bytes} {m : MultibulkParser} {pbuf : Bytes}

theorem readLen_line (beyond : Bytes) (h : pre.length < 2 ^ 31) {l : Bytes} (hl : LF ∉ l) (s pbuf : Bytes) :
    readLen beyond 0 (.after pre (l ++ LF :: s)) (some pbuf) =
      (.ok, parseInt32 (l ++ [LF]) 1 (s ++ beyond), some (pbuf ++ (l ++ [LF])),
        .after (pre ++ (l ++ [LF])) s) := by
  rw [readLen, if_pos rfl, readInt32_line _ _ _ h hl]
  rfl

variable {beyond : Bytes}

/-- An item that is a line. -/
theorem responseLoop_line (h : pre.length < 2 ^ 31) {l s : Bytes} (hl : LF ∉ l)
    (hv : parseInt32 (l ++ [LF]) 1 (s ++ beyond) ≤ 0)
    (hb : m.bulkLen = 0) (n : Nat) :
    responseLoop beyond (n + 1) m pbuf (.after pre (l ++ LF :: s)) =
      responseLoop beyond n (past m 1) (pbuf ++ (l ++ [LF])) (.after (pre ++ (l ++ [LF])) s) := by
  rw [responseLoop, hb, readLen_line beyond h hl]
  simp only [hv, and_self, if_true, Option.getD_some]
  rfl

/-- The end of an item whose length is known to be `len`, now or from an earlier call. -/
theorem responseLoop_payload (h : pre.length < 2 ^ 31) {d s : Bytes} {len : Int}
    {r0 : BufferReader} {q : Bytes}
    (hl : readLen beyond m.bulkLen r0 (some pbuf) = (.ok, len, some q, .after pre (d ++ s))) (hpos : 0 < len)
    (hd : (d.length : Int) = len + 2) (hlt : d.length < 2 ^ 31) (n : Nat) :
    responseLoop beyond (n + 1) m pbuf r0 =
      responseLoop beyond n (past m 1) (q ++ d) (.after (pre ++ d) s) := by
  have h0 : d ≠ [] := by rintro rfl; simp only [List.length_nil, Nat.cast_zero] at hd; omega
  have hsize : readSize len = d.length := by
    have hrange := readSize_range (show -2 ≤ len by omega) (by omega)
    omega
  have hr := BufferReader.read_found h q h0 s
  rw [← hsize] at hr
  rw [responseLoop, hl]
  simp only [Option.getD_some, show ¬ len ≤ 0 by omega, and_false, if_false, hr]
  rfl

/-- The loop passes `n` items. -/
theorem responseLoop_flat {n : Nat} {s : Bytes} (hs : Flat (rest ++ beyond) n s) :
    ∀ (pre : Bytes) (m : MultibulkParser) (pbuf : Bytes) (k : Nat),
    pre.length + s.length < 2 ^ 31 → m.bulkLen = 0 →
    responseLoop beyond (n + k) m pbuf (.after pre (s ++ rest)) =
      responseLoop beyond k (past m n) (pbuf ++ s) (.after (pre ++ s) rest) := by
  induction hs with
  | nil => intro pre m pbuf k _ hb; simp [past_zero hb]
  | @line n l s hl hv _ ih =>
    intro pre m pbuf k h hb
    rw [List.length_append, List.length_cons] at h
    rw [List.append_assoc, List.cons_append, Nat.add_right_comm,
      responseLoop_line (by omega) hl (by rw [List.append_assoc]; exact hv) hb,
      ih _ _ _ _ (by simp only [List.length_append, List.length_singleton]; omega) rfl, past_past]
    simp [Nat.add_comm 1]
  | @bulk n l d s v hl hv hpos hd _ ih =>
    intro pre m pbuf k h hb
    rw [List.length_append, List.length_cons, List.length_append] at h
    have hr := readLen_line beyond (show pre.length < 2 ^ 31 by omega) hl (d ++ (s ++ rest)) pbuf
    rw [← List.append_assoc d, List.append_assoc (d ++ s), hv, ← hb] at hr
    have hp : (pre ++ (l ++ [LF])).length < 2 ^ 31 := by
      simp only [List.length_append, List.length_singleton]; omega
    rw [List.append_assoc d] at hr
    have he : l ++ LF :: (d ++ s) ++ rest = l ++ LF :: (d ++ (s ++ rest)) := by simp
    rw [he, Nat.add_right_comm, responseLoop_payload hp hr hpos hd (by omega),
      ih _ _ _ _ (by simp only [List.length_append, List.length_singleton]; omega) rfl, past_past]
    simp [Nat.add_comm 1]

/-- An `OK` means the loop has passed `n` items. -/
theorem responseLoop_ok (n : Nat) :
    ∀ (pre u : Bytes) (m m' : MultibulkParser) (pbuf pbuf' : Bytes) (r' : BufferReader),
    u.length < 2 ^ 31 → m.bulkLen = 0 → responseLoop beyond n m pbuf (.after pre u) = (.ok, m', pbuf', r') →
    ∃ s rest, u = s ++ rest ∧ Flat (rest ++ beyond) n s ∧ r' = .after (pre ++ s) rest := by
  induction n with
  | zero =>
    intro pre u m m' pbuf pbuf' r' _ _ h
    simp only [responseLoop, Prod.mk.injEq] at h
    exact ⟨[], u, rfl, .nil, by rw [List.append_nil]; exact h.2.2.2.symm⟩
  | succ n ih =>
    intro pre u m m' pbuf pbuf' r' hu hb h
    rw [responseLoop, hb, readLen, if_pos rfl] at h
    split at h
    · rename_i v q r1 hr
      obtain ⟨hp, l, s, rfl, hl, hv, rfl, rfl⟩ := readInt32_ok _ _ _ hr
      rw [List.length_append, List.length_cons] at hu
      simp only [Option.map_some, Option.getD_some, true_and] at h
      split at h
      · rename_i hle
        obtain ⟨s', rest, rfl, hs, rfl⟩ := ih _ _ _ _ _ _ _ (by omega) rfl h
        refine ⟨l ++ LF :: s', rest, by simp, .line hl ?_ hs, by simp⟩
        rw [← List.append_assoc, ← hv]; exact hle
      · rename_i hle
        have hrange := parseInt32_range (l ++ [LF]) 1 (s ++ beyond)
        rw [← hv] at hrange
        split at h
        · rename_i d r2 hr2
          by_cases hbig : 2 ^ 31 ≤ v + 2
          · -- the size has wrapped: no buffer has as many bytes
            rw [BufferReader.read_short _ _ (by have := readSize_wrap hbig hrange.2; omega)] at hr2
            cases hr2
          · have hsize := readSize_range (show -2 ≤ v by omega) (by omega)
            obtain ⟨_, d, s', rfl, hd, _, rfl⟩ := BufferReader.read_ok (by omega) hr2
            rw [List.length_append] at hu
            obtain ⟨s, rest, rfl, hs, rfl⟩ := ih _ _ _ _ _ _ _ (by omega) rfl h
            refine ⟨l ++ LF :: (d ++ s), rest, by simp,
              .bulk (v := v) hl ?_ (by omega) (by omega) hs, by simp⟩
            rw [hv]; simp
        · cases h
        · rename_i hno _ _
          simp only [Prod.mk.injEq] at h
          exact (hno h.1).elim
    · rename_i hno _
      simp only [Prod.mk.injEq] at h
      exact (hno h.1).elim

/-- The first call on an array: its count line is there. -/
theorem handleResponse_array (beyond pbuf : Bytes) {n : Nat} (hn : n < 2 ^ 31) (rest : Bytes) :
    handleResponse beyond .reset pbuf (.after [] (numLine 42 n ++ rest)) =
      responseLoop beyond n ⟨n, 0, 0⟩ (pbuf ++ numLine 42 n) (.after (numLine 42 n) rest) := by
  have hc : (BufferReader.after [] (numLine 42 n ++ rest)).current = 42 := BufferReader.current_after [] 42 _
  have hl := readInt32_numLine beyond 0 (some pbuf) (show ([] : Bytes).length < 2 ^ 31 by decide)
    (show (42 : Byte) ≠ LF by decide)
    (show n < 2 ^ 32 by omega) rest
  rw [int32_natCast hn] at hl
  rw [handleResponse, readCount, reset, if_pos rfl, hc, if_pos rfl, hl]
  simp only [Int.sub_zero, Int.toNat_natCast, Option.map_some, Option.getD_some, List.nil_append]

theorem parseInt32_neg (mark : Byte) (s : Bytes) : parseInt32 (numLine mark (-1)) 1 s = -1 := by
  have hlen : ¬ (numLine mark (-1)).length ≤ 1 := by simp [numLine, crlf]
  rw [parseInt32, if_neg hlen]
  have h := atoi_neg_decimal (n := 1) (by decide) (LF :: s) (show isDigit CR = false by decide)
  simpa [numLine, decimalInt, crlf] using h

/-- A null array has no items. -/
theorem handleResponse_nullArray (beyond pbuf rest : Bytes) :
    handleResponse beyond .reset pbuf (.after [] (numLine 42 (-1) ++ rest)) =
      (.ok, ⟨-1, 0, 0⟩, pbuf ++ numLine 42 (-1), .after (numLine 42 (-1)) rest) := by
  have hc : (BufferReader.after [] (numLine 42 (-1) ++ rest)).current = 42 :=
    BufferReader.current_after [] 42 _
  have hl := readInt32_line beyond 0 (some pbuf) (show ([] : Bytes).length < 2 ^ 31 by decide)
    (numText_ne_lf (-1) (show (42 : Byte) ≠ LF by decide)) rest
  rw [← numLine_eq, parseInt32_neg, ← List.singleton_append, ← List.append_assoc, ← numLine_eq] at hl
  rw [handleResponse, readCount, reset, if_pos rfl, hc, if_pos rfl, hl]
  rfl

/-- The first call on a bulk string: one item. -/
theorem handleResponse_bulk (beyond pbuf : Bytes) {input : Bytes} (h : input.head? = some 36) :
    handleResponse beyond .reset pbuf (.after [] input) =
      responseLoop beyond 1 ⟨1, 0, 0⟩ pbuf (.after [] input) := by
  obtain ⟨b, s, rfl⟩ := List.exists_cons_of_ne_nil (l := input) (by rintro rfl; cases h)
  have hb : b = 36 := by simpa using h
  subst hb
  have hc : (BufferReader.after [] (36 :: s)).current = 36 := BufferReader.current_after [] 36 s
  have h42 : (36 : Byte) ≠ 42 := by decide
  rw [handleResponse, readCount, reset, if_pos rfl, hc, if_neg h42]
  rfl

end MultibulkParser

/-! ## One call -/

/-- The first byte of a line reply. -/
def LineMark (b : Byte) : Prop := b = 45 ∨ b = 43 ∨ b = 58

namespace CmdParser

variable {beyond : Bytes}

theorem responseType_multibulk {b : Byte} (h : b = 42 ∨ b = 36) : responseType b = .multibulk := if_pos h

/-- What `ParseResponse` makes of `HandleResponse`, in multibulk mode. -/
theorem parseResponse_handle {type : ParseType} (m : MultibulkParser) (resp : Bytes) {input : Bytes}
    (ht : type = .multibulk ∨ type = .none ∧ (input.head? = some 42 ∨ input.head? = some 36))
    (h0 : input ≠ []) :
    parseResponse beyond ⟨type, m, input, 0⟩ resp =
      ((m.handleResponse beyond resp (.after [] input)).1,
        handOver ⟨.multibulk, (m.handleResponse beyond resp (.after [] input)).2.1, input, 0⟩
          (m.handleResponse beyond resp (.after [] input)).2.2.2,
        (m.handleResponse beyond resp (.after [] input)).2.2.1) := by
  obtain ⟨b, s, rfl⟩ := List.exists_cons_of_ne_nil h0
  have hc : (⟨b :: s, 0⟩ : BufferReader).current = b := BufferReader.current_after [] b s
  have ht' : (if type = .none then responseType b else type) = ParseType.multibulk := by
    rcases ht with rfl | ⟨rfl, hb⟩
    · simp
    · rw [if_pos rfl, responseType_multibulk (by simpa using hb)]
  simp only [parseResponse, hc, ht', if_true]
  simp [BufferReader.eof, BufferReader.after]

theorem parseResponse_multibulk {type : ParseType} {m m' : MultibulkParser} {resp resp' input : Bytes}
    (pre rest : Bytes) {e : Error}
    (ht : type = .multibulk ∨ type = .none ∧ (input.head? = some 42 ∨ input.head? = some 36))
    (h0 : input ≠ [])
    (h : pre.length < 2 ^ 31) (hi : input = pre ++ rest)
    (hr : m.handleResponse beyond resp (.after [] input) = (e, m', resp', .after pre rest)) :
    parseResponse beyond ⟨type, m, input, 0⟩ resp = (e, ⟨.multibulk, m', rest, 0⟩, resp') := by
  rw [parseResponse_handle m resp ht h0, hr, handOver_after .multibulk m' h hi]

/-- A line reply that is all there. -/
theorem parseResponse_line (beyond : Bytes) {type : ParseType} (m : MultibulkParser) (resp : Bytes)
    {b : Byte} {l : Bytes} (rest : Bytes)
    (ht : type = .inline ∨ type = .none ∧ LineMark b) (hl : LF ∉ b :: l) :
    parseResponse beyond ⟨type, m, b :: l ++ LF :: rest, 0⟩ resp =
      (.ok, handOver ⟨.inline, m, b :: l ++ LF :: rest, 0⟩ (.after (b :: l ++ [LF]) rest),
        resp ++ (b :: l ++ [LF])) := by
  have hc : (⟨b :: l ++ LF :: rest, 0⟩ : BufferReader).current = b := BufferReader.current_after [] b _
  have ht' : (if type = .none then responseType b else type) = ParseType.inline := by
    rcases ht with rfl | ⟨rfl, rfl | rfl | rfl⟩ <;> rfl
  have hr : InlineParser.handleResponse resp ⟨b :: l ++ LF :: rest, 0⟩ =
      (.ok, resp ++ (b :: l ++ [LF]), .after (b :: l ++ [LF]) rest) := by
    have h := BufferReader.readUntil_found (show ([] : Bytes).length < 2 ^ 31 by decide) resp rest hl
    show InlineParser.handleResponse resp (.after [] (b :: l ++ LF :: rest)) = _
    rw [InlineParser.handleResponse, h]
    rfl
  simp only [parseResponse, hc, ht', hr]
  simp [BufferReader.eof]

end CmdParser

/-! ## Framing -/

theorem Reply.encode_ne_nil (r : Reply) : r.encode ≠ [] := by
  cases r <;> simp [Reply.encode, numLine, encodeArg_ne_nil]

theorem Reply.length_le_encodeAll : ∀ rs : List Reply, rs.length ≤ (Reply.encodeAll rs).length
  | [] => Nat.le_refl _
  | r :: rs => by
    have h1 := Reply.length_le_encodeAll rs
    have h2 := List.length_pos_iff.mpr r.encode_ne_nil
    rw [Reply.encodeAll, List.length_append, List.length_cons]
    omega

section Framing

variable {r : Reply} {beyond rest : Bytes}

/-- Whatever the parser has passed leaves the input, unless the offset is too large. -/
theorem handOver_inputb (p : CmdParser) (r : BufferReader) :
    (p.handOver r).inputb = if p.inputbr = r.offset then p.inputb else Buffer.offset p.inputb r.offset := by
  unfold CmdParser.handOver
  split <;> rfl

/-- Bytes behind the reply are left only if the reply is below 2^31 bytes. -/
theorem framed_size (h : Framed r beyond rest) (h0 : rest ≠ []) : r.encode.length < 2 ^ 31 := by
  obtain ⟨P, hP, hrest⟩ := h
  have hleft : ∃ k, P.inputb = if 0 = k then r.encode ++ rest else Buffer.offset (r.encode ++ rest) k := by
    simp only [CmdParser.parseResponse, if_true] at hP
    split at hP
    · cases hP
    · split at hP
      · cases hP
      · split at hP
        · simp only [Prod.mk.injEq] at hP
          rw [← hP.2.1]
          exact ⟨_, handOver_inputb _ _⟩
        · simp only [Prod.mk.injEq] at hP
          rw [← hP.2.1]
          exact ⟨_, handOver_inputb _ _⟩
  obtain ⟨k, hk⟩ := hleft
  rw [hrest] at hk
  split at hk
  · have := congrArg List.length hk
    have h1 := List.length_pos_iff.mpr r.encode_ne_nil
    rw [List.length_append] at this
    omega
  · unfold Buffer.offset at hk
    split at hk
    · have := congrArg List.length hk
      have h1 := List.length_pos_iff.mpr h0
      rw [List.length_drop, List.length_append] at this
      omega
    · exact absurd hk h0

theorem framed_line {b : Byte} {l : Bytes} (he : r.encode = b :: l ++ [LF]) (hb : LineMark b)
    (hl : LF ∉ b :: l)
    (hsize : r.encode.length < 2 ^ 31) : Framed r beyond rest := by
  have h := CmdParser.parseResponse_line beyond .reset [] rest (Or.inr ⟨rfl, hb⟩) hl
  have hi : b :: l ++ LF :: rest = b :: l ++ [LF] ++ rest := by simp
  rw [hi, ← he] at h
  refine ⟨_, h, ?_⟩
  rw [CmdParser.handOver_after _ _ hsize rfl]

variable {c s : Bytes} {n : Nat} {m : MultibulkParser}

/-- A reply that is read as the `n` items `s` behind `c`. -/
theorem framed_of_flat (he : r.encode = c ++ s)
    (hh : r.encode.head? = some 42 ∨ r.encode.head? = some 36) (hb : m.bulkLen = 0)
    (hr : MultibulkParser.handleResponse beyond .reset [] (.after [] (c ++ (s ++ rest))) =
      MultibulkParser.responseLoop beyond n m c (.after c (s ++ rest)))
    (hsize : r.encode.length < 2 ^ 31) (hf : Flat (rest ++ beyond) n s) : Framed r beyond rest := by
  have hl := MultibulkParser.responseLoop_flat hf c m c 0
    (by rw [he, List.length_append] at hsize; exact hsize) hb
  rw [Nat.add_zero, MultibulkParser.responseLoop, ← hr, ← List.append_assoc, ← he] at hl
  have h0 : r.encode ++ rest ≠ [] := by simp [r.encode_ne_nil]
  have hh' : (r.encode ++ rest).head? = some 42 ∨ (r.encode ++ rest).head? = some 36 := by
    obtain ⟨b, t, hbt⟩ := List.exists_cons_of_ne_nil r.encode_ne_nil
    rw [hbt] at hh ⊢
    exact hh
  exact ⟨_, CmdParser.parseResponse_multibulk r.encode rest (Or.inr ⟨rfl, hh'⟩) h0 hsize rfl hl, rfl⟩

theorem flat_of_framed (he : r.encode = c ++ s)
    (hh : r.encode.head? = some 42 ∨ r.encode.head? = some 36) (hb : m.bulkLen = 0)
    (hr : MultibulkParser.handleResponse beyond .reset [] (.after [] (c ++ s)) =
      MultibulkParser.responseLoop beyond n m c (.after c s))
    (hsize : r.encode.length < 2 ^ 31) (hf : Framed r beyond []) : Flat beyond n s := by
  obtain ⟨P, hP, hleft⟩ := hf
  rw [List.append_nil, CmdParser.parseResponse_handle _ _ (Or.inr ⟨rfl, hh⟩) r.encode_ne_nil, he, hr] at hP
  rw [he, List.length_append] at hsize
  generalize hres : MultibulkParser.responseLoop beyond n m c (.after c s) = res at hP
  obtain ⟨e, m', resp, r'⟩ := res
  simp only [Prod.mk.injEq] at hP
  obtain ⟨rfl, hP, _⟩ := hP
  obtain ⟨s', rest, rfl, hflat, rfl⟩ :=
    MultibulkParser.responseLoop_ok n c s m m' c resp r' (by omega) hb hres
  rw [List.length_append] at hsize
  rw [CmdParser.handOver_after _ _ (by rw [List.length_append]; omega) (by simp)] at hP
  have hrest : rest = [] := by rw [← hleft, ← hP]
  subst hrest
  rwa [List.append_nil]

end Framing

/-! ## Items -/

section Items

variable {after s b : Bytes} {n : Nat}

/-- A null bulk string is an item. -/
theorem flat_null (h : Flat after n s) : Flat after (n + 1) (numLine 36 (-1) ++ s) := by
  have hl : LF ∉ numText 36 (-1) := numText_ne_lf _ (by decide)
  have he : numLine 36 (-1) ++ s = numText 36 (-1) ++ LF :: s := by rw [numLine_eq]; simp
  rw [he]
  refine .line hl ?_ h
  rw [← numLine_eq, MultibulkParser.parseInt32_neg]
  decide

/-- So is a bulk string that is not empty. -/
theorem flat_bulk (h0 : b ≠ []) (hb : b.length + 2 < 2 ^ 31) (h : Flat after n s) :
    Flat after (n + 1) (encodeArg b ++ s) := by
  have hl : LF ∉ numText 36 b.length := numText_ne_lf _ (by decide)
  have he : encodeArg b ++ s = numText 36 b.length ++ LF :: ((b ++ crlf) ++ s) := by
    rw [encodeArg, header, numLine_eq]; simp
  have hpos := List.length_pos_iff.mpr h0
  rw [he]
  refine .bulk (v := b.length) hl ?_ (by omega) (by simp [crlf]) h
  rw [← numLine_eq, parseInt32_numLine 36 (by omega), int32_natCast (by omega)]

/-- An empty one is not: its line end is not part of the item. -/
theorem not_flat_empty : ¬ Flat after 1 (encodeArg []) := by
  have hp : ∀ l s : Bytes, LF ∉ l → encodeArg [] = l ++ LF :: s → l = [36, 48, CR] ∧ s = crlf := by
    intro l s hl he
    have hm := memchr_found s hl
    rw [← he] at hm
    have h3 : l.length = 3 := by
      have : memchr (encodeArg []) LF = some 3 := by decide
      rw [this] at hm; injection hm with hm; exact hm.symm
    have he' : [36, 48, CR] ++ LF :: crlf = l ++ LF :: s := he
    obtain ⟨h1, h2⟩ := List.append_inj he' (by rw [h3]; rfl)
    exact ⟨h1.symm, (List.cons.inj h2).2.symm⟩
  intro h
  generalize he : encodeArg [] = t at h
  cases h with
  | @line n l s hl _ hs =>
    cases hs
    have := (hp l [] hl he).2
    cases this
  | @bulk n l d s v hl hv hpos hd hs =>
    cases hs
    obtain ⟨rfl, h⟩ := hp l (d ++ []) hl he
    rw [List.append_nil] at h
    subst h
    simp only [crlf, List.length_cons, List.length_nil] at hd
    omega

end Items

/-! ## Exactly which replies are framed -/

theorem Reply.count_lt {rs : List Reply} (h : (Reply.array rs).encode.length < 2 ^ 31) :
    rs.length < 2 ^ 31 := by
  have := Reply.length_le_encodeAll rs
  rw [Reply.encode, List.length_append] at h
  omega

theorem lineText_lf (l : Line) : LF ∉ l.1 ++ [CR] := by
  rw [List.mem_append, not_or]
  exact ⟨l.2.2, by decide⟩

theorem framed_of_even {r : Reply} {beyond rest : Bytes} (hsize : r.encode.length < 2 ^ 31)
    (h : r.Even (rest ++ beyond)) :
    Framed r beyond rest := by
  cases r with
  | simple l =>
    refine framed_line (b := 43) (l := l.1 ++ [CR]) (by simp [Reply.encode, crlf])
      (by unfold LineMark; decide) ?_ hsize
    exact List.not_mem_cons_of_ne_of_not_mem (by decide) (lineText_lf l)
  | error l =>
    refine framed_line (b := 45) (l := l.1 ++ [CR]) (by simp [Reply.encode, crlf])
      (by unfold LineMark; decide) ?_ hsize
    exact List.not_mem_cons_of_ne_of_not_mem (by decide) (lineText_lf l)
  | integer i =>
    refine framed_line (b := 58) (l := decimalInt i ++ [CR]) (by simp [Reply.encode, numLine, crlf])
      (by unfold LineMark; decide) ?_ hsize
    exact numText_ne_lf i (by decide)
  | nullBulk =>
    refine framed_of_flat (c := []) (s := numLine 36 (-1)) (n := 1) (m := ⟨1, 0, 0⟩) rfl
      (Or.inr rfl) rfl ?_ hsize ?_
    · exact MultibulkParser.handleResponse_bulk _ _ rfl
    · have hf : Flat (rest ++ beyond) (0 + 1) (numLine 36 (-1) ++ []) := flat_null .nil
      rwa [List.append_nil] at hf
  | bulk b =>
    refine framed_of_flat (c := []) (s := encodeArg b) (n := 1) (m := ⟨1, 0, 0⟩) rfl
      (Or.inr rfl) rfl ?_ hsize ?_
    · exact MultibulkParser.handleResponse_bulk _ _ rfl
    · rw [Reply.encode, MultibulkParser.length_encodeArg] at hsize
      have hf : Flat (rest ++ beyond) (0 + 1) (encodeArg b ++ []) := flat_bulk h (by omega) .nil
      rwa [List.append_nil] at hf
  | nullArray =>
    refine framed_of_flat (c := numLine 42 (-1)) (s := []) (n := 0) (m := ⟨-1, 0, 0⟩)
      (by simp [Reply.encode]) (Or.inl rfl) rfl ?_ hsize .nil
    exact MultibulkParser.handleResponse_nullArray _ _ _
  | array rs =>
    exact framed_of_flat (m := ⟨rs.length, 0, 0⟩) rfl (Or.inl rfl) rfl
      (MultibulkParser.handleResponse_array _ _ (Reply.count_lt hsize) _) hsize h

theorem even_of_framed {r : Reply} {beyond : Bytes} (hsize : r.encode.length < 2 ^ 31)
    (h : Framed r beyond []) : r.Even beyond := by
  cases r with
  | bulk b =>
    rintro rfl
    refine not_flat_empty (flat_of_framed (c := []) (s := encodeArg []) (n := 1) (m := ⟨1, 0, 0⟩) rfl
      (Or.inr rfl) rfl ?_ hsize h)
    exact MultibulkParser.handleResponse_bulk _ _ rfl
  | array rs =>
    exact flat_of_framed (m := ⟨rs.length, 0, 0⟩) rfl (Or.inl rfl) rfl
      (MultibulkParser.handleResponse_array _ _ (Reply.count_lt hsize) _) hsize h
  | _ => trivial

/-- A reply value is returned whole whatever follows it exactly if it is below 2^31 bytes
    and `Even` whatever follows it. -/
theorem framed_iff (r : Reply) :
    (∀ beyond rest, Framed r beyond rest) ↔ r.encode.length < 2 ^ 31 ∧ ∀ after, r.Even after := by
  constructor
  · intro h
    have hsize := framed_size (h [] [0]) (by decide)
    exact ⟨hsize, fun after => even_of_framed hsize (h after [])⟩
  · intro h beyond rest
    exact framed_of_even h.1 (h.2 _)

/-- An empty bulk string's line end stays in the input. -/
theorem framed_empty : ¬ ∀ (r : Reply) (beyond rest : Bytes), Framed r beyond rest := by
  intro h
  obtain ⟨P, hP, _⟩ := h (.bulk []) [] []
  have hresp : (CmdParser.parseResponse [] ⟨.none, .reset, (Reply.bulk []).encode ++ [], 0⟩ []).2.2 =
    header [] := by decide
  rw [hP] at hresp
  have hne : (Reply.bulk []).encode ≠ header [] := by decide
  exact hne hresp

end RedisProxy.Wire
