/-
  RedisProxy.Wire.Line — an inline request and what follows it in the input.

  A round of the inline loop asks for a space in all that is left of the input, and for
  LF only when there is none (`readUntilAny`). So a space anywhere behind the line hides
  the line's end: the round of the last token takes it together with the line end and
  everything up to that space for one argument. The loop the source has commented out
  took the separator that comes first.

  From 2^31 on, positions arrive negative at `Offset`: a token that starts there is not
  found, and a line that ends there takes the rest of the input with it.

  Proved:
  - `requestLoop_hidden`: with a space behind the line, an argument holds the line end.
  - `taken_iff`: one call takes the line and nothing else exactly if no space follows, and
    the line ends below 2^31 (or nothing follows and its last token starts below).
  - `two_requests`: `a\r\n` in front of `b c\r\n`.
-/

import RedisProxy.Wire.Inline

namespace RedisProxy.Wire

open Lib.Decimal

/-! ## The line -/

inductive LineEnd where
  | crlf
  | lf
  deriving DecidableEq, Repr

def LineEnd.bytes : LineEnd → Bytes
  | crlf => [CR, LF]
  | lf => [LF]

/-- An inline request: tokens without separators, the first of which does not select the
    multibulk mode. -/
structure InlineLine where
  tokens : List Bytes
  lineEnd : LineEnd
  ne_nil : tokens ≠ []
  isToken : ∀ t ∈ tokens, IsToken t
  cr : ∀ t ∈ tokens, CR ∉ t
  star : ∀ t ∈ tokens.head?, t.head? ≠ some 42

namespace InlineLine

def bytes (line : InlineLine) : Bytes := [32].intercalate line.tokens ++ line.lineEnd.bytes

/-- Where its last token starts. -/
def lastAt (line : InlineLine) : Nat := (spaced line.tokens.dropLast).length

/-- One call of a reset parser on the line and `rest` appends the tokens to the command and
    leaves `rest`. -/
def Taken (line : InlineLine) (rest : Bytes) : Prop :=
  ∀ (beyond : Bytes) (cmd : Cmd),
    let (e, p, argv) := CmdParser.parseRequest beyond ⟨.none, .reset, line.bytes ++ rest, 0⟩ cmd
    e = .ok ∧ argv = cmd ++ line.tokens ∧ p.inputb = rest ∧ p.inputbr = 0

end InlineLine

theorem joined_eq (ts : List Bytes) (last : Bytes) : [32].intercalate (ts ++ [last]) = spaced ts ++ last := by
  induction ts with
  | nil => simp [spaced]
  | cons t ts ih =>
    cases ts with
    | nil => simp [spaced, List.intercalate]
    | cons u us =>
      simp only [List.cons_append] at ih ⊢
      rw [List.intercalate_cons_cons, ih]
      simp [spaced]

/-! ## The loop on the line -/

namespace InlineParser

variable {pre s : Bytes} {cmd : Cmd} {r : BufferReader}

/-- What the loop has appended it keeps. -/
theorem requestLoop_grows (n : Nat) : ∀ (cmd : Cmd) (r : BufferReader), cmd <+: (requestLoop n cmd r).2.1 := by
  induction n with
  | zero => intro cmd r; exact List.prefix_refl cmd
  | succ n ih =>
    intro cmd r
    rw [requestLoop]
    split
    · split
      · exact List.prefix_append _ _
      · exact (List.prefix_append _ _).trans (ih _ _)
    · exact List.prefix_refl cmd
    · exact List.prefix_refl cmd

/-- A round that starts at 2^31 or later finds nothing. -/
theorem requestLoop_lost (h : ¬ pre.length < 2 ^ 31) (hs : s ≠ []) (n : Nat) :
    (requestLoop n cmd (.after pre s)).1 = .tryAgain := by
  cases n with
  | zero => rfl
  | succ n =>
    have hne : (BufferReader.after pre s).eof = false := by simp [hs]
    have hr : (BufferReader.after pre s).readUntilAny [] splitSign = (.notFound, [], .after pre s) := by
      rw [BufferReader.readUntilAny, hne, BufferReader.rest_far h]
      rfl
    rw [requestLoop, hr]

/-- A token that starts there is never reached. -/
theorem requestLoop_far (ts : List Bytes) (hs : s ≠ []) : ∀ (pre : Bytes) (cmd : Cmd) (n : Nat),
    (∀ t ∈ ts, IsToken t) → ¬ pre.length + (spaced ts).length < 2 ^ 31 →
    (requestLoop n cmd (.after pre (spaced ts ++ s))).1 = .tryAgain := by
  induction ts with
  | nil =>
    intro pre cmd n _ h
    exact requestLoop_lost (by simpa [spaced] using h) hs n
  | cons t ts ih =>
    intro pre cmd n ht h
    cases n with
    | zero => rfl
    | succ n =>
      by_cases hp : pre.length < 2 ^ 31
      · have hfirst := ht t List.mem_cons_self
        rw [spaced_cons, List.append_assoc, List.cons_append, requestLoop_space hp hfirst.ne_nil hfirst.space]
        refine ih _ _ _ (fun u hu => ht u (List.mem_cons_of_mem _ hu)) ?_
        rw [spaced_cons] at h
        simp only [List.length_append, List.length_cons, List.length_nil] at h ⊢
        omega
      · exact requestLoop_lost hp (by simp [hs]) (n + 1)

/-- The last token and a bare LF. -/
theorem requestLoop_lf (cmd : Cmd) (h : pre.length < 2 ^ 31) {t : Bytes} (ht : IsToken t) (hcr : CR ∉ t)
    (hs : 32 ∉ t ++ LF :: s) (n : Nat) :
    requestLoop (n + 1) cmd (.after pre (t ++ LF :: s)) =
      (.ok, cmd ++ [t], .after (pre ++ (t ++ [LF])) s) := by
  have hlast : (BufferReader.after (pre ++ t) (LF :: s)).last ≠ CR := by
    obtain ⟨t', b, rfl⟩ : ∃ t' b, t = t' ++ [b] := ⟨_, _, (List.dropLast_concat_getLast ht.ne_nil).symm⟩
    have hb : b ≠ CR := fun e => hcr (by simp [e])
    simpa [BufferReader.last, BufferReader.after] using hb
  rw [requestLoop, BufferReader.readUntilAny_lf h [] ht.ne_nil ht.lf hs]
  simp only [BufferReader.current_after, BufferReader.next_after, if_true, if_neg hlast, List.nil_append,
    List.append_assoc]

/-- A line's last token, with no space behind it. -/
theorem requestLoop_lineEnd (h : pre.length < 2 ^ 31) {t : Bytes} (ht : IsToken t) (hcr : CR ∉ t)
    (lineEnd : LineEnd) (hs : 32 ∉ s) (n : Nat) :
    requestLoop (n + 1) cmd (.after pre (t ++ lineEnd.bytes ++ s)) =
      (.ok, cmd ++ [t], .after (pre ++ (t ++ lineEnd.bytes)) s) := by
  cases lineEnd with
  | crlf =>
    refine requestLoop_last h ht.lf ?_ n
    intro hm
    rcases List.mem_append.mp hm with hm | hm
    · rcases List.mem_append.mp hm with hm | hm
      · exact ht.space hm
      · revert hm; decide
    · exact hs hm
  | lf =>
    have hsp : 32 ∉ t ++ LF :: s := by
      intro hm
      rcases List.mem_append.mp hm with hm | hm
      · exact ht.space hm
      · rcases List.mem_cons.mp hm with hm | hm
        · cases hm
        · exact hs hm
    have hl := requestLoop_lf cmd h ht hcr hsp n
    simpa [LineEnd.bytes] using hl

/-- A line's last token, with a space somewhere behind it: an argument holds the line end. -/
theorem requestLoop_hidden (cmd : Cmd) (h : pre.length < 2 ^ 31) {t : Bytes} (ht : IsToken t) (lineEnd : LineEnd)
    (hs : 32 ∈ s) (n : Nat) : ∃ a, LF ∈ a ∧
      cmd ++ [a] <+: (requestLoop (n + 1) cmd (.after pre (t ++ lineEnd.bytes ++ s))).2.1 := by
  obtain ⟨u, v, rfl, hu⟩ := List.eq_append_cons_of_mem hs
  have hlf : LF ∈ lineEnd.bytes := by cases lineEnd <;> decide
  have hsp : 32 ∉ t ++ lineEnd.bytes ++ u := by
    intro hm
    rcases List.mem_append.mp hm with hm | hm
    · rcases List.mem_append.mp hm with hm | hm
      · exact ht.space hm
      · cases lineEnd <;> revert hm <;> decide
    · exact hu hm
  refine ⟨t ++ lineEnd.bytes ++ u, by simp [hlf], ?_⟩
  rw [← List.append_assoc, requestLoop_space h (by simp [ht.ne_nil]) hsp]
  exact requestLoop_grows n _ _

end InlineParser

/-! ## One call -/

namespace InlineLine

variable (line : InlineLine) {rest : Bytes}

/-- The tokens before the last, and the last. -/
theorem split : ∃ ts last, line.tokens = ts ++ [last] ∧ line.bytes = spaced ts ++ (last ++ line.lineEnd.bytes) ∧
    line.lastAt = (spaced ts).length := by
  have hsplit := List.dropLast_concat_getLast line.ne_nil
  refine ⟨line.tokens.dropLast, line.tokens.getLast line.ne_nil, hsplit.symm, ?_, rfl⟩
  rw [bytes, ← List.append_assoc, ← joined_eq, hsplit]

theorem bytes_ne_nil : line.bytes ≠ [] := by
  cases h : line.lineEnd <;> simp [bytes, h, LineEnd.bytes]

theorem head_bytes (rest : Bytes) : (line.bytes ++ rest).head? ≠ some 42 := by
  obtain ⟨t, ts, hts⟩ := List.exists_cons_of_ne_nil line.ne_nil
  have hne := (line.isToken t (by simp [hts])).ne_nil
  have hstar : t.head? ≠ some 42 := line.star t (by simp [hts])
  obtain ⟨b, u, rfl⟩ := List.exists_cons_of_ne_nil hne
  cases ts <;> simpa [bytes, hts, List.intercalate_cons_cons] using hstar

/-- One call, from what the loop makes of the line. -/
theorem parseRequest_line {beyond : Bytes} {cmd cmd' : Cmd} {e : Error} {r : BufferReader}
    (hr : InlineParser.handleRequest cmd (.after [] (line.bytes ++ rest)) = (e, cmd', r)) :
    CmdParser.parseRequest beyond ⟨.none, .reset, line.bytes ++ rest, 0⟩ cmd =
      (e, CmdParser.handOver ⟨.inline, .reset, line.bytes ++ rest, 0⟩ r, cmd') :=
  parseRequest_handOver (Or.inr ⟨rfl, line.head_bytes rest⟩) (by simp [line.bytes_ne_nil]) hr

/-- What is left in the input behind the line. -/
theorem handOver_line : CmdParser.handOver ⟨.inline, .reset, line.bytes ++ rest, 0⟩ (.after line.bytes rest) =
    ⟨.inline, .reset, if line.bytes.length < 2 ^ 31 then rest else [], 0⟩ := by
  have h0 : line.bytes.length ≠ 0 := fun h => line.bytes_ne_nil (List.eq_nil_of_length_eq_zero h)
  simp [CmdParser.handOver, h0.symm, Buffer.offset]

variable {ts : List Bytes} {last : Bytes}

/-- The tokens before the last are passed. -/
theorem handleRequest_line (hsplit : line.tokens = ts ++ [last])
    (hb : line.bytes = spaced ts ++ (last ++ line.lineEnd.bytes)) (h : (spaced ts).length < 2 ^ 31)
    (cmd : Cmd) (rest : Bytes) :
    ∃ n, InlineParser.handleRequest cmd (.after [] (line.bytes ++ rest)) =
      InlineParser.requestLoop (n + 1) (cmd ++ ts) (.after (spaced ts) (last ++ line.lineEnd.bytes ++ rest)) := by
  rw [hb, List.append_assoc]
  exact handleRequest_tokens cmd _ (fun t ht => line.isToken t (by simp [hsplit, ht])) h

/-- What a taken line says of the loop. -/
theorem Taken.loop {line : InlineLine} (h : line.Taken rest) (cmd : Cmd) {cmd' : Cmd} {e : Error} {r : BufferReader}
    (hr : InlineParser.handleRequest cmd (.after [] (line.bytes ++ rest)) = (e, cmd', r)) :
    e = .ok ∧ cmd' = cmd ++ line.tokens := by
  have hcall := h [] cmd
  rw [line.parseRequest_line hr] at hcall
  exact ⟨hcall.1, hcall.2.1⟩

/-- A space behind the line, and the line is not taken. -/
theorem not_taken_of_space (hsplit : line.tokens = ts ++ [last])
    (hb : line.bytes = spaced ts ++ (last ++ line.lineEnd.bytes)) (h : (spaced ts).length < 2 ^ 31) (hs : 32 ∈ rest) :
    ¬ line.Taken rest := by
  have hlast := line.isToken last (by simp [hsplit])
  intro htaken
  obtain ⟨n, hr⟩ := line.handleRequest_line hsplit hb h [] rest
  obtain ⟨a, ha, hpre⟩ := InlineParser.requestLoop_hidden ([] ++ ts) h hlast line.lineEnd hs n
  generalize InlineParser.requestLoop (n + 1) ([] ++ ts) _ = res at hr hpre
  have hargv := (htaken.loop [] hr).2
  rw [hargv, hsplit, List.append_assoc, List.prefix_append_right_inj, List.prefix_append_right_inj,
    List.cons_prefix_cons] at hpre
  exact hlast.lf (hpre.1 ▸ ha)

/-- A last token that starts at 2^31 or later, and the line is not taken. -/
theorem not_taken_of_far (hsplit : line.tokens = ts ++ [last])
    (hb : line.bytes = spaced ts ++ (last ++ line.lineEnd.bytes)) (h : ¬ (spaced ts).length < 2 ^ 31) :
    ¬ line.Taken rest := by
  have hts : ∀ t ∈ ts, IsToken t := fun t ht => line.isToken t (by simp [hsplit, ht])
  have hne : last ++ line.lineEnd.bytes ++ rest ≠ [] := by simp [(line.isToken last (by simp [hsplit])).ne_nil]
  intro htaken
  have hfar := InlineParser.requestLoop_far ts hne [] [] ((line.bytes ++ rest).length + 1) hts (by simpa using h)
  rw [← List.append_assoc (spaced ts), ← hb] at hfar
  generalize hr : InlineParser.requestLoop ((line.bytes ++ rest).length + 1) [] _ = res at hfar
  have hok := (htaken.loop [] hr).1
  rw [hfar] at hok
  cases hok

/-- One call takes exactly the line where no space follows it anywhere in the input, and it
    ends below 2^31 or is the last thing in the input and its last token starts below. -/
theorem taken_iff (rest : Bytes) :
    line.Taken rest ↔ 32 ∉ rest ∧ (line.bytes.length < 2 ^ 31 ∨ rest = [] ∧ line.lastAt < 2 ^ 31) := by
  obtain ⟨ts, last, hsplit, hb, hat⟩ := line.split
  have hle : line.lastAt ≤ line.bytes.length := by rw [hat, hb, List.length_append]; omega
  by_cases h : (spaced ts).length < 2 ^ 31
  · by_cases hs : 32 ∈ rest
    · exact iff_of_false (line.not_taken_of_space hsplit hb h hs) fun hcond => hcond.1 hs
    have hlast := line.isToken last (by simp [hsplit])
    have hcr := line.cr last (by simp [hsplit])
    have hcall (beyond : Bytes) (cmd : Cmd) :
        CmdParser.parseRequest beyond ⟨.none, .reset, line.bytes ++ rest, 0⟩ cmd =
          (.ok, ⟨.inline, .reset, if line.bytes.length < 2 ^ 31 then rest else [], 0⟩, cmd ++ line.tokens) := by
      obtain ⟨n, hr⟩ := line.handleRequest_line hsplit hb h cmd rest
      rw [InlineParser.requestLoop_lineEnd h hlast hcr line.lineEnd hs, ← hb] at hr
      rw [line.parseRequest_line hr, handOver_line, hsplit, List.append_assoc]
    have hinput : line.Taken rest ↔ (if line.bytes.length < 2 ^ 31 then rest else []) = rest := by
      simp only [Taken, hcall]
      simp
    rw [hinput, hat]
    constructor
    · intro hin
      refine ⟨hs, ?_⟩
      by_cases hlen : line.bytes.length < 2 ^ 31
      · exact Or.inl hlen
      · rw [if_neg hlen] at hin
        exact Or.inr ⟨hin.symm, h⟩
    · rintro ⟨-, hlen | ⟨rfl, -⟩⟩
      · rw [if_pos hlen]
      · exact ite_self _
  · refine iff_of_false (line.not_taken_of_far hsplit hb h) ?_
    rintro ⟨-, hlen | ⟨-, hlen⟩⟩ <;> omega

/-- `a\r\n` and then `b c\r\n`: the first argument of the command is `a\r\nb`. -/
theorem two_requests : ¬ ∀ (line : InlineLine) (rest : Bytes), line.Taken rest := by
  intro h
  have hcall := h ⟨[[97]], .crlf, by decide, fun t ht => ⟨by simp_all, by simp_all, by simp_all [LF]⟩,
    by decide, by decide⟩ [98, 32, 99, CR, LF] [] []
  revert hcall
  decide

end InlineLine

end RedisProxy.Wire
