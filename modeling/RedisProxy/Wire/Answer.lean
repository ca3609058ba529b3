/-
  RedisProxy.Wire.Answer — a reply that is still arriving.

  The replies here are those the item loop follows whatever lies behind them (`Steady`): a
  line, a null or non-empty bulk string, an array of non-empty bulk strings and of lines that
  read as no positive number. Null and non-empty bulk strings and arrays of them are such
  (`Plain`). A reply is a count line, empty for a bulk string, and items (`Layout`). What the
  parser has passed is in the reply buffer; its counters and the unread bytes say where it
  stands (`Halfway r p`: the state it waits in once the prefix `p` of the reply has been
  received).

  Proved:
  - `flat_steady`: elements that are followed are as many flat items as they are.
  - `parseResponse_part`: a call short of the end of the reply is not `OK` and moves the
    position, whichever error it returns.
  - `parseResponse_whole`: the call that brings the end returns the reply and leaves what
    follows.
-/

import RedisProxy.Wire.Reply

namespace RedisProxy.Wire

open Lib.Decimal Lib.Pieces

/-! ## The replies that are followed -/

def Reply.IsItem : Reply → Prop
  | .nullBulk => True
  | .bulk b => b ≠ [] ∧ b.length + 2 < 2 ^ 31
  | _ => False

def Reply.Plain : Reply → Prop
  | .array rs => (∀ x ∈ rs, x.IsItem) ∧ rs.length < 2 ^ 31
  | .bulk b => (Reply.bulk b).IsItem
  | _ => True

/-- A line with a number that is not positive, whatever follows it. -/
def Reply.IsBare (r : Reply) : Prop :=
  (∃ l, r.encode = l ++ [LF] ∧ LF ∉ l) ∧ ∀ after, parseInt32 r.encode 1 after ≤ 0

/-- What the item loop takes for the one item that it is. -/
def Reply.IsElement : Reply → Prop
  | .bulk b => b ≠ [] ∧ b.length + 2 < 2 ^ 31
  | r => r.IsBare

def Reply.Steady : Reply → Prop
  | .array rs => (∀ x ∈ rs, x.IsElement) ∧ rs.length < 2 ^ 31
  | .bulk b => (Reply.bulk b).IsElement
  | _ => True

theorem bare_nullBulk : Reply.nullBulk.IsBare := by
  refine ⟨⟨numText 36 (-1), numLine_eq _ _, numText_ne_lf _ (by decide)⟩, fun after => ?_⟩
  rw [Reply.encode, MultibulkParser.parseInt32_neg]
  decide

theorem Reply.IsItem.element {x : Reply} (hx : x.IsItem) : x.IsElement := by
  cases x with
  | nullBulk => exact bare_nullBulk
  | bulk b => exact hx
  | _ => exact hx.elim

theorem Reply.Plain.steady {r : Reply} (h : r.Plain) : r.Steady := by
  cases r with
  | array rs => exact ⟨fun x hx => (h.1 x hx).element, h.2⟩
  | bulk b => exact h
  | _ => trivial

theorem encodeAll_eq : ∀ rs : List Reply, Reply.encodeAll rs = rs.flatMap Reply.encode
  | [] => rfl
  | r :: rs => by rw [Reply.encodeAll, encodeAll_eq rs, List.flatMap_cons]

theorem flat_bare {x : Reply} (hx : x.IsBare) {after s : Bytes} {n : Nat} (h : Flat after n s) :
    Flat after (n + 1) (x.encode ++ s) := by
  obtain ⟨⟨l, he, hl⟩, hnum⟩ := hx
  have hv := hnum (s ++ after)
  rw [he] at hv ⊢
  rw [List.append_assoc]
  exact .line hl hv h

theorem flat_item {x : Reply} (hx : x.IsElement) {after s : Bytes} {n : Nat} (h : Flat after n s) :
    Flat after (n + 1) (x.encode ++ s) := by
  cases x with
  | bulk b => exact flat_bulk hx.1 hx.2 h
  | _ => exact flat_bare hx h

/-- As many elements are as many items. -/
theorem flat_steady (after : Bytes) (rs : List Reply) (h : ∀ x ∈ rs, x.IsElement) :
    Flat after rs.length (rs.flatMap Reply.encode) := by
  induction rs with
  | nil => exact .nil
  | cons x rs ih =>
    rw [List.flatMap_cons, List.length_cons]
    exact flat_item (h x (List.mem_cons_self ..)) (ih fun y hy => h y (List.mem_cons_of_mem _ hy))

/-- The number on a bulk string's line. -/
def Reply.itemLen : Reply → Int
  | .bulk b => b.length
  | _ => -1

/-- An item's first line. -/
def Reply.itemLine : Reply → Bytes
  | .bulk b => numLine 36 b.length
  | r => r.encode

/-- What an item has behind its first line. -/
def Reply.itemBody : Reply → Bytes
  | .bulk b => b ++ crlf
  | _ => []

/-- An item is a length line and, for a bulk string, the bytes and a line end. -/
theorem item_encode (x : Reply) : x.encode = x.itemLine ++ x.itemBody := by
  cases x with
  | bulk b => rfl
  | _ => exact (List.append_nil _).symm

theorem itemLine_ne_nil (x : Reply) : x.itemLine ≠ [] := by
  cases x with
  | bulk b => simp [Reply.itemLine, numLine]
  | _ => exact Reply.encode_ne_nil _

/-- The reply is the line `c` and the items `rs`; `len` is the count the parser keeps. -/
structure Layout (r : Reply) (c : Bytes) (len : Int) (rs : List Reply) : Prop where
  enc : r.encode = c ++ rs.flatMap Reply.encode
  items : ∀ x ∈ rs, x.IsElement
  count : len.toNat = rs.length
  line : (c = [] ∧ len = 1 ∧ r.encode.head? = some 36) ∨ c = numLine 42 len ∧ -1 ≤ len ∧ len < 2 ^ 31

def Reply.IsLine (r : Reply) : Prop := ∃ b l, r.encode = b :: l ++ [LF] ∧ LF ∉ b :: l ∧ LineMark b

/-- A steady reply is a line or has a layout. -/
theorem steady_cases {r : Reply} (h : r.Steady) : r.IsLine ∨ ∃ c len rs, Layout r c len rs := by
  have hline {b : Byte} {l : Bytes} (he : r.encode = b :: l ++ [LF]) (hl : LF ∉ l) (hm : LineMark b) :
      r.IsLine := by
    refine ⟨b, l, he, List.not_mem_cons_of_ne_of_not_mem ?_ hl, hm⟩
    rcases hm with rfl | rfl | rfl <;> decide
  cases r with
  | simple l => exact Or.inl (hline (b := 43) (l := l.1 ++ [CR]) (by simp [Reply.encode, crlf])
    (lineText_lf l) (by unfold LineMark; decide))
  | error l => exact Or.inl (hline (b := 45) (l := l.1 ++ [CR]) (by simp [Reply.encode, crlf])
    (lineText_lf l) (by unfold LineMark; decide))
  | integer i =>
    have hl : LF ∉ decimalInt i ++ [CR] := by
      rw [List.mem_append, not_or]; exact ⟨decimalInt_ne_lf i, by decide⟩
    exact Or.inl (hline (b := 58) (l := decimalInt i ++ [CR])
      (by simp [Reply.encode, numLine, crlf]) hl (by unfold LineMark; decide))
  | nullBulk => exact Or.inr ⟨[], 1, [.nullBulk],
    ⟨by simp, fun x hx => by rw [List.mem_singleton.mp hx]; exact bare_nullBulk, rfl, Or.inl ⟨rfl, rfl, rfl⟩⟩⟩
  | bulk b => exact Or.inr ⟨[], 1, [.bulk b],
    ⟨by simp, fun x hx => by rw [List.mem_singleton.mp hx]; exact h, rfl, Or.inl ⟨rfl, rfl, rfl⟩⟩⟩
  | nullArray =>
    exact Or.inr ⟨_, -1, [], ⟨by simp [Reply.encode], by simp, rfl, Or.inr ⟨rfl, by decide, by decide⟩⟩⟩
  | array rs =>
    have hlt := h.2
    exact Or.inr ⟨_, rs.length, rs,
      ⟨by rw [Reply.encode, encodeAll_eq], h.1, rfl, Or.inr ⟨rfl, by omega, by omega⟩⟩⟩

/-- The state the parser waits in after the prefix `p` of `r`, and the reply buffer. -/
inductive Halfway (r : Reply) : Bytes → CmdParser → Bytes → Prop
  | start : Halfway r [] .init []
  | line {p : Bytes} : r.IsLine → Proper p r.encode → p ≠ [] → Halfway r p ⟨.inline, .reset, p, 0⟩ []
  | count {c p : Bytes} {len : Int} {rs : List Reply} : Layout r c len rs → Proper p c → p ≠ [] →
      Halfway r p ⟨.multibulk, .reset, p, 0⟩ []
  | header {c w : Bytes} {len : Int} {done todo : List Reply} {x : Reply} :
    Layout r c len (done ++ x :: todo) →
      Proper w x.itemLine → c ++ (done.flatMap Reply.encode ++ w) ≠ [] →
      Halfway r (c ++ (done.flatMap Reply.encode ++ w)) ⟨.multibulk, ⟨len, done.length, 0⟩, w, 0⟩
        (c ++ done.flatMap Reply.encode)
  | payload {c w : Bytes} {len : Int} {done todo : List Reply} {x : Reply} :
    Layout r c len (done ++ x :: todo) →
      Proper w x.itemBody →
      Halfway r (c ++ (done.flatMap Reply.encode ++ (x.itemLine ++ w)))
        ⟨.multibulk, ⟨len, done.length, x.itemLen⟩, w, 0⟩
          (c ++ (done.flatMap Reply.encode ++ x.itemLine))

/-- A parser that has nothing of the reply is a fresh one. -/
theorem halfway_nil {r : Reply} {P : CmdParser} {resp : Bytes} (h : Halfway r [] P resp) : P = .init ∧ resp = [] := by
  generalize hq : ([] : Bytes) = q at h
  cases h with
  | start => exact ⟨rfl, rfl⟩
  | line _ _ hne => exact absurd hq.symm hne
  | count _ _ hne => exact absurd hq.symm hne
  | header _ _ hne => exact absurd hq.symm hne
  | payload _ _ =>
    have hline := (List.append_eq_nil_iff.mp (List.append_eq_nil_iff.mp (List.append_eq_nil_iff.mp hq.symm).2).2).1
    exact absurd hline (itemLine_ne_nil _)

/-! ## The item loop on part of its items -/

namespace MultibulkParser

variable {beyond pre w : Bytes} {m : MultibulkParser} {pbuf : Bytes}

theorem readLen_item {b : Bytes} (hb : b.length < 2 ^ 31) (h : pre.length < 2 ^ 31) (rest pbuf : Bytes) :
    readLen beyond 0 (.after pre (numLine 36 (b.length : Int) ++ rest)) (some pbuf) =
      (.ok, (b.length : Int), some (pbuf ++ numLine 36 b.length), .after (pre ++ numLine 36 b.length) rest) := by
  have hl := readLen_line beyond h (numText_ne_lf b.length (show (36 : Byte) ≠ LF by decide)) rest pbuf
  have hv : parseInt32 (numLine 36 b.length) 1 (rest ++ beyond) = b.length :=
    (parseInt32_numLine 36 (by omega) _).trans (int32_natCast hb)
  rw [← numLine_eq, hv] at hl
  rw [← hl, numLine_eq]
  simp

/-- An item's line is one. -/
theorem item_line {x : Reply} (hx : x.IsElement) : ∃ l, x.itemLine = l ++ [LF] ∧ LF ∉ l := by
  cases x with
  | bulk b => exact ⟨_, numLine_eq _ _, numText_ne_lf _ (by decide)⟩
  | _ => exact hx.1

theorem responseLoop_fail {p : Option Bytes} {e : Error} {len : Int} {r r0 : BufferReader} (n : Nat)
    (he : e ≠ .ok)
    (hl : readLen beyond m.bulkLen r0 (some pbuf) = (e, len, p, r)) :
    responseLoop beyond (n + 1) m pbuf r0 = (e, { m with bulkLen := len }, p.getD pbuf, r) := by
  rw [responseLoop, hl]
  cases e <;> first | exact absurd rfl he | rfl

theorem responseLoop_wait {q buf : Bytes} {len : Int} {r r' r0 : BufferReader} (n : Nat) (hpos : 0 < len)
    (hl : readLen beyond m.bulkLen r0 (some pbuf) = (.ok, len, some q, r))
    (hr : r.read q (readSize len) = (.outOfBound, buf, r')) :
    responseLoop beyond (n + 1) m pbuf r0 = (.tryAgain, { m with bulkLen := len }, buf, r') := by
  rw [responseLoop, hl]
  simp only [Option.getD_some, show ¬ len ≤ 0 by omega, and_false, if_false, hr]

/-- An item's line is not all there. -/
theorem responseLoop_header_part (beyond pbuf : Bytes) {x : Reply} (hx : x.IsElement) (h : pre.length < 2 ^ 31)
    (hb : m.bulkLen = 0) (hw : Proper w x.itemLine) (n : Nat) :
    ∃ e, e ≠ .ok ∧ responseLoop beyond (n + 1) m pbuf (.after pre w) = (e, m, pbuf, .after pre w) := by
  obtain ⟨l, hl, hlf⟩ := item_line hx
  rw [hl] at hw
  obtain ⟨e, he, hread⟩ := readInt32_unended beyond 0 (some pbuf) h (hw.not_mem hlf)
  have hlen : readLen beyond m.bulkLen (.after pre w) (some pbuf) = (e, m.bulkLen, some pbuf, .after pre w) := by
    rw [hb, readLen, if_pos rfl, hread]
  exact ⟨e, he, responseLoop_fail n he hlen⟩

/-- Only a bulk string has bytes behind its line. -/
theorem bulk_of_body {x : Reply} (h : Proper w x.itemBody) : ∃ b, x = .bulk b := by
  cases x with
  | bulk b => exact ⟨b, rfl⟩
  | _ => exact absurd h (not_proper_nil w)

theorem item_body {x : Reply} (hx : x.IsElement) (h : Proper w x.itemBody) :
    0 < x.itemLen ∧ x.itemLen + 2 < 2 ^ 31 ∧ (x.itemBody.length : Int) = x.itemLen + 2 := by
  cases x with
  | bulk b =>
    have hpos := List.length_pos_iff.mpr hx.1
    have hlt := hx.2
    refine ⟨by simp only [Reply.itemLen]; omega, by simp only [Reply.itemLen]; omega, ?_⟩
    simp [Reply.itemBody, Reply.itemLen, crlf]
  | _ => exact absurd h (not_proper_nil w)

theorem readSize_item {len : Int} (h0 : 0 < len) (h : len + 2 < 2 ^ 31) : (readSize len : Int) = len + 2 :=
  readSize_range (by omega) h

/-- An item's line is there, its bytes are not all there. -/
theorem responseLoop_body_part {x : Reply} (hx : x.IsElement) (h : pre.length < 2 ^ 31)
    (hb : m.bulkLen = 0) (hw : Proper w x.itemBody) (n : Nat) :
    responseLoop beyond (n + 1) m pbuf (.after pre (x.itemLine ++ w)) =
      (.tryAgain, { m with bulkLen := x.itemLen }, pbuf ++ x.itemLine,
        .after (pre ++ x.itemLine) w) := by
  obtain ⟨h0, h1, h2⟩ := item_body hx hw
  have hsize := readSize_item h0 h1
  have hlt := hw.length_lt
  have hr := BufferReader.read_short (pre ++ x.itemLine) (pbuf ++ x.itemLine)
    (show w.length < readSize x.itemLen by omega)
  obtain ⟨b, rfl⟩ := bulk_of_body hw
  exact responseLoop_wait n h0 (by rw [hb]; exact readLen_item (Nat.lt_of_add_right_lt hx.2) h w pbuf) hr

/-- An earlier call read the line, the bytes are still not all there. -/
theorem responseLoop_body_wait {x : Reply} (hx : x.IsElement) (hb : m.bulkLen = x.itemLen)
    (hw : Proper w x.itemBody) (n : Nat) :
    responseLoop beyond (n + 1) m pbuf (.after pre w) = (.tryAgain, m, pbuf, .after pre w) := by
  obtain ⟨h0, h1, h2⟩ := item_body hx hw
  have hsize := readSize_item h0 h1
  have hlt := hw.length_lt
  have hr := BufferReader.read_short pre pbuf (show w.length < readSize x.itemLen by omega)
  have hl : readLen beyond m.bulkLen (.after pre w) (some pbuf) =
      (.ok, x.itemLen, some pbuf, .after pre w) := by
    rw [readLen, if_neg (by omega), hb]
  rw [responseLoop_wait n h0 hl hr, ← hb]

/-- An earlier call read the line, and the bytes are all there. -/
theorem responseLoop_body {x : Reply} (hx : x.IsElement) (h : pre.length < 2 ^ 31) (h0 : x.itemBody ≠ [])
    (hb : m.bulkLen = x.itemLen) (n : Nat)
    (rest : Bytes) :
    responseLoop beyond (n + 1) m pbuf (.after pre (x.itemBody ++ rest)) =
      responseLoop beyond n (past m 1) (pbuf ++ x.itemBody) (.after (pre ++ x.itemBody) rest) := by
  obtain ⟨h1, h2, h3⟩ := item_body hx (proper_nil h0)
  have hl : readLen beyond m.bulkLen (.after pre (x.itemBody ++ rest)) (some pbuf) =
      (.ok, x.itemLen, some pbuf, .after pre (x.itemBody ++ rest)) := by
    rw [readLen, if_neg (by omega), hb]
  exact responseLoop_payload h hl h1 h3 (by omega) n

/-- How the loop leaves on a proper prefix `u` of its items. -/
theorem responseLoop_part (beyond pbuf : Bytes) {as : List Reply} {u : Bytes}
    (has : ∀ x ∈ as, x.IsElement) (h : pre.length + u.length < 2 ^ 31) (hb : m.bulkLen = 0)
    (hu : Proper u (as.flatMap Reply.encode)) :
    ∃ done x todo w, as = done ++ x :: todo ∧
      ((Proper w x.itemLine ∧ u = done.flatMap Reply.encode ++ w ∧
        ∃ e, e ≠ .ok ∧ responseLoop beyond as.length m pbuf (.after pre u) =
          (e, past m done.length, pbuf ++ done.flatMap Reply.encode,
            .after (pre ++ done.flatMap Reply.encode) w)) ∨
      (Proper w x.itemBody ∧ u = done.flatMap Reply.encode ++ (x.itemLine ++ w) ∧
        responseLoop beyond as.length m pbuf (.after pre u) =
          (.tryAgain, { past m done.length with bulkLen := x.itemLen },
            pbuf ++ (done.flatMap Reply.encode ++ x.itemLine),
            .after (pre ++ (done.flatMap Reply.encode ++ x.itemLine)) w))) := by
  obtain ⟨done, x, todo, w, rfl, rfl, hw⟩ := proper_flatMap hu
  rw [List.length_append] at h
  have hlen : (done ++ x :: todo).length = done.length + (todo.length + 1) := by simp
  have hx := has x (by simp)
  have hdone (rest : Bytes) := flat_steady (rest ++ beyond) done fun y hy => has y (by simp [hy])
  rw [item_encode x] at hw
  rcases proper_append hw with hh | ⟨v, rfl, hv⟩
  · obtain ⟨e, he, hl⟩ := responseLoop_header_part beyond (pbuf ++ done.flatMap Reply.encode) hx
      (m := past m done.length)
      (show (pre ++ done.flatMap Reply.encode).length < 2 ^ 31 by rw [List.length_append]; omega)
      rfl hh todo.length
    refine ⟨done, x, todo, w, rfl, Or.inl ⟨hh, rfl, e, he, ?_⟩⟩
    rw [hlen, responseLoop_flat (hdone w) _ _ _ _ (by omega) hb, hl]
  · refine ⟨done, x, todo, v, rfl, Or.inr ⟨hv, rfl, ?_⟩⟩
    rw [hlen, responseLoop_flat (hdone _) _ _ _ _ (by omega) hb,
      responseLoop_body_part hx (by rw [List.length_append]; omega) rfl hv]
    simp

/-- A later call: the count is known. -/
theorem handleResponse_resume (beyond pbuf : Bytes) {len : Int} {i k : Nat} (h : len.toNat = i + k)
    (hk : k ≠ 0) (b : Int) (r : BufferReader) :
    handleResponse beyond ⟨len, i, b⟩ pbuf r = responseLoop beyond k ⟨len, i, b⟩ pbuf r := by
  have hc : readCount beyond ⟨len, i, b⟩ pbuf r = (.ok, len, some pbuf, r) := by
    rw [readCount, if_neg (by show len ≠ 0; omega)]
  rw [handleResponse, hc]
  simp only [Option.getD_some]
  congr 1
  omega

end MultibulkParser

/-! ## One call -/

/-- What a call that meets the end of the input, `q` of the reply received, leaves. -/
structure Waiting (r : Reply) (q : Bytes) (res : Error × CmdParser × Bytes) : Prop where
  err : res.1 ≠ .ok
  pos : Halfway r q res.2.1 res.2.2

section Part

variable {r : Reply} {beyond c pre u input resp : Bytes} {len : Int} {done as rs : List Reply}
  {m : MultibulkParser} {type : ParseType}

/-- A call that reaches the items `as` and finds the proper prefix `u` of them. -/
theorem waiting_loop (done : List Reply) (hlay : Layout r c len (done ++ as))
    (ht : type = .multibulk ∨ type = .none ∧ (input.head? = some 42 ∨ input.head? = some 36))
    (h0 : input ≠ []) (hi : input = pre ++ u)
    (hpos : input.length < 2 ^ 31) (hu : Proper u (as.flatMap Reply.encode))
    (hne : c ++ (done.flatMap Reply.encode ++ u) ≠ [])
    (hr : m.handleResponse beyond resp (.after [] input) =
      MultibulkParser.responseLoop beyond as.length ⟨len, done.length, 0⟩
        (c ++ done.flatMap Reply.encode) (.after pre u)) :
    Waiting r (c ++ (done.flatMap Reply.encode ++ u))
      (CmdParser.parseResponse beyond ⟨type, m, input, 0⟩ resp) := by
  have hpu : pre.length + u.length < 2 ^ 31 := by rw [hi, List.length_append] at hpos; exact hpos
  obtain ⟨d, x, todo, w, rfl, hc⟩ := MultibulkParser.responseLoop_part beyond (c ++ done.flatMap Reply.encode)
    (m := ⟨len, done.length, 0⟩) (fun y hy => hlay.items y (List.mem_append_right _ hy)) hpu rfl hu
  have hlay' : Layout r c len ((done ++ d) ++ x :: todo) := by rwa [List.append_assoc]
  rcases hc with ⟨hw, rfl, e, he, hl⟩ | ⟨hw, rfl, hl⟩
  · have hq : c ++ (done.flatMap Reply.encode ++ (d.flatMap Reply.encode ++ w)) =
      c ++ ((done ++ d).flatMap Reply.encode ++ w) := by simp
    rw [List.length_append] at hpu
    rw [CmdParser.parseResponse_multibulk (pre ++ d.flatMap Reply.encode) w ht h0
      (by rw [List.length_append]; omega)
      (by rw [hi, List.append_assoc]) (hr.trans hl), hq]
    have := Halfway.header hlay' hw (by rw [← hq]; exact hne)
    exact ⟨he, by simpa [MultibulkParser.past] using this⟩
  · have hq : c ++ (done.flatMap Reply.encode ++ (d.flatMap Reply.encode ++ (x.itemLine ++ w))) =
        c ++ ((done ++ d).flatMap Reply.encode ++ (x.itemLine ++ w)) := by simp
    rw [List.length_append, List.length_append] at hpu
    rw [CmdParser.parseResponse_multibulk (pre ++ (d.flatMap Reply.encode ++ x.itemLine)) w ht h0
      (by simp only [List.length_append]; omega) (by rw [hi]; simp only [List.append_assoc])
        (hr.trans hl), hq]
    have := Halfway.payload hlay' hw
    exact ⟨by simp, by simpa [MultibulkParser.past] using this⟩

theorem head_prefix {p e : Bytes} {b : Byte} (hb : e.head? = some b) (h0 : p ≠ []) (h : p <+: e) :
    p.head? = some b := by
  obtain ⟨t, rfl⟩ := h
  obtain ⟨b', s, rfl⟩ := List.exists_cons_of_ne_nil h0
  exact hb

/-- A call on an array whose count line is not all there, or all there and more. -/
theorem waiting_count (hlay : Layout r c len rs) (hcl : c = numLine 42 len) (h0 : input ≠ [])
    (ht : type = .multibulk ∨ type = .none)
    (hpos : input.length < 2 ^ 31) (hp : Proper input r.encode) :
    Waiting r input (CmdParser.parseResponse beyond ⟨type, .reset, input, 0⟩ []) := by
  have hhead : input.head? = some 42 := head_prefix (by rw [hlay.enc, hcl]; rfl) h0 hp.isPrefix
  have ht' : type = .multibulk ∨ type = .none ∧ (input.head? = some 42 ∨ input.head? = some 36) := by
    rcases ht with h | h
    · exact Or.inl h
    · exact Or.inr ⟨h, Or.inl hhead⟩
  rw [hlay.enc] at hp
  rcases proper_append hp with hcount | ⟨v, rfl, hv⟩
  · have hc : (BufferReader.after [] input).current = 42 := by
      obtain ⟨b, s, rfl⟩ := List.exists_cons_of_ne_nil h0
      rw [BufferReader.current_after]
      simpa using hhead
    have hl := MultibulkParser.readInt32_proper beyond 0 (some [])
      (show ([] : Bytes).length < 2 ^ 31 by decide) (by decide) (hcl ▸ hcount)
    rw [if_neg h0] at hl
    have hr : MultibulkParser.handleResponse beyond .reset [] (.after [] input) =
        (.tryAgain, .reset, [], .after [] input) := by
      rw [MultibulkParser.handleResponse, MultibulkParser.readCount, MultibulkParser.reset, if_pos rfl,
        hc, if_pos rfl, hl]
      rfl
    rw [CmdParser.parseResponse_multibulk [] input ht' h0 (by simp) rfl hr]
    exact ⟨by simp, .count hlay hcount h0⟩
  · have hlen : len = rs.length := by
      have hcnt := hlay.count
      have : rs ≠ [] := by rintro rfl; exact not_proper_nil _ hv
      have := List.length_pos_iff.mpr this
      omega
    subst hlen
    have hn : rs.length < 2 ^ 31 := by
      rcases hlay.line with h | h
      · omega
      · omega
    have hr := MultibulkParser.handleResponse_array beyond [] hn v
    rw [← hcl, List.nil_append] at hr
    have := waiting_loop [] hlay ht' h0 rfl hpos hv (by simpa using h0) (by simpa using hr)
    simpa using this

/-- A call on a bulk string, at its start. -/
theorem waiting_bulk (hlay : Layout r [] 1 rs) (hmark : r.encode.head? = some 36) (h0 : input ≠ [])
    (hpos : input.length < 2 ^ 31) (hp : Proper input r.encode) :
    Waiting r input (CmdParser.parseResponse beyond ⟨.none, .reset, input, 0⟩ []) := by
  have henc := hlay.enc
  rw [List.nil_append] at henc
  obtain ⟨x, rfl⟩ : ∃ x, rs = [x] := List.length_eq_one_iff.mp hlay.count.symm
  have hhead : input.head? = some 36 := head_prefix hmark h0 hp.isPrefix
  rw [henc] at hp
  have hr := MultibulkParser.handleResponse_bulk beyond [] hhead
  have := waiting_loop [] (c := []) hlay (Or.inr ⟨rfl, Or.inr hhead⟩) h0 (List.nil_append _).symm hpos hp
    (by simpa using h0) (by simpa using hr)
  simpa using this

/-- A call on a line reply whose line is not all there. -/
theorem waiting_line (hl : r.IsLine) (h0 : input ≠ []) (ht : type = .inline ∨ type = .none)
    (hp : Proper input r.encode) :
    Waiting r input (CmdParser.parseResponse beyond ⟨type, .reset, input, 0⟩ []) := by
  obtain ⟨b, l, he, hlf, hm⟩ := hl
  obtain ⟨b', s, rfl⟩ := List.exists_cons_of_ne_nil h0
  have hb : b' = b := by
    have := head_prefix (e := r.encode) (b := b) (by rw [he]; rfl) h0 hp.isPrefix
    simpa using this
  subst hb
  have hc : (⟨b' :: s, 0⟩ : BufferReader).current = b' := BufferReader.current_after [] b' s
  have ht' : (if type = .none then CmdParser.responseType b' else type) = ParseType.inline := by
    rcases ht with rfl | rfl
    · rfl
    · rcases hm with rfl | rfl | rfl <;> rfl
  have hr : InlineParser.handleResponse [] ⟨b' :: s, 0⟩ = (.tryAgain, [], .after [] (b' :: s)) := by
    have hn : LF ∉ b' :: s := by rw [he] at hp; exact hp.not_mem hlf
    have h := BufferReader.readUntil_none (show ([] : Bytes).length < 2 ^ 31 by decide) [] 1 h0 hn
    show InlineParser.handleResponse [] (.after [] (b' :: s)) = _
    rw [InlineParser.handleResponse, h]
  have hres : CmdParser.parseResponse beyond ⟨type, .reset, b' :: s, 0⟩ [] =
      (.tryAgain, ⟨.inline, .reset, b' :: s, 0⟩, []) := by
    simp only [CmdParser.parseResponse, hc, ht', hr]
    simp [BufferReader.eof, CmdParser.handOver]
  rw [hres]
  exact ⟨by simp, .line ⟨b', l, he, hlf, hm⟩ hp h0⟩

/-- A call that goes on in the bytes of item `x`. -/
theorem waiting_payload {x : Reply} {todo : List Reply} (hlay : Layout r c len (done ++ x :: todo))
    (hb : x.itemBody ≠ [])
    (h0 : input ≠ []) (hpos : input.length < 2 ^ 31)
    (hp : Proper input (x.itemBody ++ todo.flatMap Reply.encode)) :
    Waiting r (c ++ (done.flatMap Reply.encode ++ (x.itemLine ++ input)))
      (CmdParser.parseResponse beyond ⟨.multibulk, ⟨len, done.length, x.itemLen⟩, input, 0⟩
        (c ++ (done.flatMap Reply.encode ++ x.itemLine))) := by
  have hx := hlay.items x (by simp)
  have hk : len.toNat = done.length + (todo.length + 1) := by rw [hlay.count]; simp
  have hres := MultibulkParser.handleResponse_resume beyond
    (c ++ (done.flatMap Reply.encode ++ x.itemLine))
    hk (by simp) x.itemLen (.after [] input)
  rcases proper_append hp with hw | ⟨v, rfl, hv⟩
  · rw [MultibulkParser.responseLoop_body_wait hx rfl hw] at hres
    rw [CmdParser.parseResponse_multibulk [] input (Or.inl rfl) h0 (by simp) rfl hres]
    exact ⟨by simp, .payload hlay hw⟩
  · have hlay' : Layout r c len ((done ++ [x]) ++ todo) := by simpa using hlay
    rw [MultibulkParser.responseLoop_body hx (by simp) hb rfl] at hres
    have hw := waiting_loop (done ++ [x]) hlay' (Or.inl rfl) h0 rfl hpos hv
      (by simp [x.encode_ne_nil])
      (hres.trans (by simp [MultibulkParser.past, item_encode x]))
    simpa [item_encode x] using hw

/-- A call on one more chunk, short of the end of the reply. -/
theorem parseResponse_part {p a : Bytes} {P : CmdParser} (hr : r.Steady) (hs : Halfway r p P resp)
    (h0 : P.inputb ++ a ≠ [])
    (hpos : (P.inputb ++ a).length < 2 ^ 31) (hp : Proper (p ++ a) r.encode) :
    Waiting r (p ++ a) (CmdParser.parseResponse beyond (P.feed a) resp) := by
  cases hs with
  | start =>
    rcases steady_cases hr with hl | ⟨c, len, rs, hlay⟩
    · exact waiting_line hl h0 (Or.inr rfl) hp
    · rcases hlay.line with ⟨rfl, rfl, hhead⟩ | ⟨hcl, _⟩
      · exact waiting_bulk hlay hhead h0 hpos hp
      · exact waiting_count hlay hcl h0 (Or.inr rfl) hpos hp
  | line hl hw _ => exact waiting_line hl h0 (Or.inl rfl) hp
  | @count c _ len rs hlay hw _ =>
    have hcl : c = numLine 42 len := by
      rcases hlay.line with ⟨rfl, _⟩ | h
      · exact absurd hw (not_proper_nil _)
      · exact h.1
    exact waiting_count hlay hcl h0 (Or.inl rfl) hpos hp
  | @header c w len done todo x hlay hw hne =>
    have hk : len.toNat = done.length + (x :: todo).length := by rw [hlay.count]; simp
    rw [hlay.enc, List.flatMap_append, List.append_assoc, List.append_assoc, proper_append_left,
      proper_append_left] at hp
    have hres := waiting_loop done hlay (Or.inl rfl) h0 (List.nil_append _).symm hpos hp ?_
      (MultibulkParser.handleResponse_resume beyond _ hk (by simp) 0 _)
    · simpa [CmdParser.feed] using hres
    · exact fun e => h0 (List.append_eq_nil_iff.mp (List.append_eq_nil_iff.mp e).2).2
  | @payload c w len done todo x hlay hw =>
    rw [hlay.enc, List.flatMap_append, List.flatMap_cons, item_encode x] at hp
    simp only [List.append_assoc, proper_append_left] at hp ⊢
    exact waiting_payload hlay (fun e => not_proper_nil w (e ▸ hw)) h0 hpos hp

/-! ## The call that brings the end -/

/-- `OK`, the reply, and what follows it left. -/
def Answers (r : Reply) (rest : Bytes) (res : Error × CmdParser × Bytes) : Prop :=
  ∃ type m, res = (.ok, ⟨type, m, rest, 0⟩, r.encode)

variable {rest p a : Bytes}

/-- A call that reaches the items `as` and finds them all. -/
theorem answers_loop (done : List Reply) (hlay : Layout r c len (done ++ as))
    (ht : type = .multibulk ∨ type = .none ∧ (input.head? = some 42 ∨ input.head? = some 36))
    (h0 : input ≠ [])
    (hi : input = pre ++ (as.flatMap Reply.encode ++ rest))
    (hpos : pre.length + (as.flatMap Reply.encode).length < 2 ^ 31)
    (hr : m.handleResponse beyond resp (.after [] input) =
      MultibulkParser.responseLoop beyond as.length ⟨len, done.length, 0⟩ (c ++ done.flatMap Reply.encode)
        (.after pre (as.flatMap Reply.encode ++ rest))) :
    Answers r rest (CmdParser.parseResponse beyond ⟨type, m, input, 0⟩ resp) := by
  have hf := flat_steady (rest ++ beyond) as fun y hy => hlay.items y (List.mem_append_right _ hy)
  have hl := MultibulkParser.responseLoop_flat hf pre ⟨len, done.length, 0⟩
    (c ++ done.flatMap Reply.encode) 0 hpos rfl
  rw [Nat.add_zero, MultibulkParser.responseLoop] at hl
  refine ⟨.multibulk, MultibulkParser.past ⟨len, done.length, 0⟩ as.length, ?_⟩
  rw [CmdParser.parseResponse_multibulk (pre ++ as.flatMap Reply.encode) rest ht h0
    (by rw [List.length_append]; exact hpos)
    (by rw [hi, List.append_assoc]) (hr.trans hl), hlay.enc]
  simp

theorem answers_line (beyond rest : Bytes) (hl : r.IsLine) (ht : type = .inline ∨ type = .none)
    (hsize : r.encode.length < 2 ^ 31) :
    Answers r rest (CmdParser.parseResponse beyond ⟨type, .reset, r.encode ++ rest, 0⟩ []) := by
  obtain ⟨b, l, he, hlf, hm⟩ := hl
  have h := CmdParser.parseResponse_line beyond .reset [] rest (ht.imp_right fun e => ⟨e, hm⟩) hlf
  have hi : b :: l ++ LF :: rest = b :: l ++ [LF] ++ rest := by simp
  rw [hi, ← he, CmdParser.handOver_after _ _ hsize rfl] at h
  exact ⟨_, _, h⟩

theorem answers_count (beyond rest : Bytes) (hlay : Layout r c len rs) (hcl : c = numLine 42 len)
    (ht : type = .multibulk ∨ type = .none)
    (hsize : r.encode.length < 2 ^ 31) :
      Answers r rest (CmdParser.parseResponse beyond ⟨type, .reset, r.encode ++ rest, 0⟩ []) := by
  have hi : r.encode ++ rest = c ++ (rs.flatMap Reply.encode ++ rest) := by rw [hlay.enc, List.append_assoc]
  have h0 : r.encode ++ rest ≠ [] := by simp [r.encode_ne_nil]
  have ht' : type = .multibulk ∨ type = .none ∧
      ((r.encode ++ rest).head? = some 42 ∨ (r.encode ++ rest).head? = some 36) :=
    ht.imp_right fun e => ⟨e, Or.inl (by rw [hi, hcl]; rfl)⟩
  have hrange : -1 ≤ len ∧ len < 2 ^ 31 := by
    rcases hlay.line with h | h
    · omega
    · exact h.2
  rw [hlay.enc, List.length_append] at hsize
  have hcnt := hlay.count
  by_cases hneg : len = -1
  · -- a null array is its count line
    subst hneg
    obtain rfl : rs = [] := List.length_eq_zero_iff.mp hcnt.symm
    have hr := MultibulkParser.handleResponse_nullArray beyond [] rest
    have hres := CmdParser.parseResponse_multibulk c rest ht' h0 (by omega) hi (by rw [hi, hcl]; exact hr)
    have he : r.encode = [] ++ numLine 42 (-1) := by rw [hlay.enc, hcl]; simp
    rw [← he] at hres
    exact ⟨_, _, hres⟩
  · obtain rfl : len = rs.length := by omega
    have hr := MultibulkParser.handleResponse_array beyond [] (show rs.length < 2 ^ 31 by omega)
      (rs.flatMap Reply.encode ++ rest)
    rw [← hcl, ← hi] at hr
    exact answers_loop [] hlay ht' h0 hi hsize (by simpa using hr)

theorem answers_bulk (hlay : Layout r [] 1 rs) (hmark : r.encode.head? = some 36)
    (hsize : r.encode.length < 2 ^ 31) :
    Answers r rest (CmdParser.parseResponse beyond ⟨.none, .reset, r.encode ++ rest, 0⟩ []) := by
  have henc := hlay.enc
  rw [List.nil_append] at henc
  obtain ⟨x, rfl⟩ : ∃ x, rs = [x] := List.length_eq_one_iff.mp hlay.count.symm
  have hhead : (r.encode ++ rest).head? = some 36 := by
    rw [List.head?_append, hmark]
    rfl
  have h0 : r.encode ++ rest ≠ [] := by simp [r.encode_ne_nil]
  have hr := MultibulkParser.handleResponse_bulk beyond [] hhead
  rw [henc] at hsize
  refine answers_loop [] hlay (Or.inr ⟨rfl, Or.inr hhead⟩) h0 (by rw [henc, List.nil_append])
    (by simpa using hsize) ?_
  simpa [henc] using hr

theorem answers_payload (beyond rest : Bytes) {x : Reply} {todo : List Reply}
    (hlay : Layout r c len (done ++ x :: todo)) (hb : x.itemBody ≠ [])
    (hpos : (x.itemBody ++ todo.flatMap Reply.encode).length < 2 ^ 31) :
    Answers r rest (CmdParser.parseResponse beyond
      ⟨.multibulk, ⟨len, done.length, x.itemLen⟩, x.itemBody ++ (todo.flatMap Reply.encode ++ rest), 0⟩
      (c ++ (done.flatMap Reply.encode ++ x.itemLine))) := by
  have hx := hlay.items x (by simp)
  have hk : len.toNat = done.length + (todo.length + 1) := by rw [hlay.count]; simp
  have hres := MultibulkParser.handleResponse_resume beyond
    (c ++ (done.flatMap Reply.encode ++ x.itemLine))
    hk (by simp) x.itemLen (.after [] (x.itemBody ++ (todo.flatMap Reply.encode ++ rest)))
  rw [MultibulkParser.responseLoop_body hx (by simp) hb rfl] at hres
  have hlay' : Layout r c len ((done ++ [x]) ++ todo) := by simpa using hlay
  rw [List.length_append] at hpos
  exact answers_loop (done ++ [x]) hlay' (Or.inl rfl) (by simp [hb]) rfl hpos
    (hres.trans (by simp [MultibulkParser.past, item_encode x]))

/-- The call that brings the end of the reply returns it and leaves what follows. -/
theorem parseResponse_whole {P : CmdParser} (hr : r.Steady) (hs : Halfway r p P resp)
    (hpos : (P.inputb ++ a).length < 2 ^ 31)
    (hp : p ++ a = r.encode) : Answers r rest (CmdParser.parseResponse beyond (P.feed (a ++ rest)) resp) := by
  cases hs with
  | start =>
    have ha : a = r.encode := hp
    subst ha
    rcases steady_cases hr with hl | ⟨c, len, rs, hlay⟩
    · exact answers_line beyond rest hl (Or.inr rfl) hpos
    · rcases hlay.line with ⟨rfl, rfl, hhead⟩ | ⟨hcl, _⟩
      · exact answers_bulk hlay hhead hpos
      · exact answers_count beyond rest hlay hcl (Or.inr rfl) hpos
  | line hl hw _ =>
    have h := answers_line beyond rest hl (Or.inl rfl) (by rw [← hp]; exact hpos)
    rwa [← hp, List.append_assoc] at h
  | @count c _ len rs hlay hw _ =>
    have hcl : c = numLine 42 len := by
      rcases hlay.line with ⟨rfl, _⟩ | h
      · exact absurd hw (not_proper_nil _)
      · exact h.1
    have h := answers_count beyond rest hlay hcl (Or.inl rfl) (by rw [← hp]; exact hpos)
    rwa [← hp, List.append_assoc] at h
  | @header c w len done todo x hlay hw hne =>
    have hk : len.toNat = done.length + (x :: todo).length := by rw [hlay.count]; simp
    rw [hlay.enc, List.flatMap_append, List.append_assoc, List.append_assoc] at hp
    have hp := List.append_cancel_left (List.append_cancel_left hp)
    have hi : w ++ (a ++ rest) = (x :: todo).flatMap Reply.encode ++ rest := by rw [← List.append_assoc, hp]
    have hpos' : ((x :: todo).flatMap Reply.encode).length < 2 ^ 31 := by rw [← hp]; exact hpos
    refine answers_loop done hlay (Or.inl rfl) ?_ (hi.trans (List.nil_append _).symm)
      (by simpa using hpos') ?_
    · rw [hi]; simp [x.encode_ne_nil]
    · rw [hi]; exact MultibulkParser.handleResponse_resume _ _ hk (by simp) 0 _
  | @payload c w len done todo x hlay hw =>
    have hx := hlay.items x (by simp)
    rw [hlay.enc, List.flatMap_append, List.flatMap_cons, item_encode x] at hp
    simp only [List.append_assoc, List.append_cancel_left_eq] at hp
    have hi : w ++ (a ++ rest) = x.itemBody ++ (todo.flatMap Reply.encode ++ rest) := by
      rw [← List.append_assoc, hp, List.append_assoc]
    have h := answers_payload beyond rest hlay (fun e => not_proper_nil w (e ▸ hw)) (by rw [← hp]; exact hpos)
    rwa [← hi] at h

end Part

end RedisProxy.Wire
