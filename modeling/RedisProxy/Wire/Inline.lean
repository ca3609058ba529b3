/-
  RedisProxy.Wire.Inline — the inline request parser against its grammar.

  A command is non-empty tokens with one space between two of them, ended by CRLF
  (`encodeInline`). A round of the loop reads one token and the byte behind it; what it
  has read leaves the input with the call, so the tokens are in the command and only the
  last one, cut short, is still unread (`Typed`).

  Where the input ends right behind a space nothing is unread, and the round that finds
  nothing returns `OutOfBound`, not `TryAgain` (`AfterSpace`).

  Proved:
  - `requestLoop_enough`: the loop's fuel is never the reason it stops.
  - `inline_part`: a call short of the end of the command moves the position.
-/

import RedisProxy.Wire.Request

namespace RedisProxy.Wire

open Lib.Decimal Lib.Pieces

/-! ## The grammar -/

structure IsToken (t : Bytes) : Prop where
  ne_nil : t ≠ []
  space : 32 ∉ t
  lf : LF ∉ t

/-- Tokens with a space behind each. -/
def spaced (ts : List Bytes) : Bytes := ts.flatMap (· ++ [32])

def encodeInline (ts : List Bytes) (last : Bytes) : Bytes := spaced ts ++ (last ++ crlf)

def AfterSpace (p : Bytes) : Prop := p.getLast? = some 32

theorem spaced_append (ts us : List Bytes) : spaced (ts ++ us) = spaced ts ++ spaced us := by
  simp [spaced]

theorem spaced_cons (t : Bytes) (ts : List Bytes) : spaced (t :: ts) = t ++ 32 :: spaced ts := by
  simp [spaced]

theorem length_spaced (ts : List Bytes) : ts.length ≤ (spaced ts).length := by
  induction ts with
  | nil => simp
  | cons t ts ih => rw [spaced_cons, List.length_append, List.length_cons, List.length_cons]; omega

/-! ## Reading a token -/

namespace BufferReader

variable {pre rest : Bytes}

theorem next_after (pre : Bytes) (b : Byte) (rest : Bytes) :
    (after pre (b :: rest)).next = after (pre ++ [b]) rest := by
  rw [next, eof_after]
  simp [after]

theorem readUntilAny_nil (pre dst : Bytes) (chs : List Byte) :
    (after pre []).readUntilAny dst chs = (.outOfBound, dst, after pre []) := by
  simp [readUntilAny]

theorem readUntilAny_none (h : pre.length < 2 ^ 31) (dst : Bytes) (hr : rest ≠ []) (h1 : 32 ∉ rest)
    (h2 : LF ∉ rest) :
    (after pre rest).readUntilAny dst splitSign = (.notFound, dst, after pre rest) := by
  rw [readUntilAny, rest_after h]
  simp [hr, splitSign, memchr_none h1, memchr_none h2]

/-- Anything up to a space. -/
theorem readUntilAny_space (h : pre.length < 2 ^ 31) (dst : Bytes) {t : Bytes} (h0 : t ≠ []) (h1 : 32 ∉ t)
    (s : Bytes) :
    (after pre (t ++ 32 :: s)).readUntilAny dst splitSign = (.ok, dst ++ t, after (pre ++ t) (32 :: s)) := by
  have hf : splitSign.findSome? (memchr (t ++ 32 :: s)) = some t.length := by
    rw [splitSign, List.findSome?_cons, memchr_found s h1]
  have hne : (t ++ 32 :: s).isEmpty = false := by simp
  rw [readUntilAny, rest_after h, eof_after, hne, hf]
  exact take_after h dst h0 (32 :: s)

/-- Anything but a space up to LF, when no space follows in the input either. -/
theorem readUntilAny_lf (h : pre.length < 2 ^ 31) (dst : Bytes) {t s : Bytes} (h0 : t ≠ [])
    (h1 : LF ∉ t) (h2 : 32 ∉ t ++ LF :: s) :
    (after pre (t ++ LF :: s)).readUntilAny dst splitSign = (.ok, dst ++ t, after (pre ++ t) (LF :: s)) := by
  have hf : splitSign.findSome? (memchr (t ++ LF :: s)) = some t.length := by
    rw [splitSign, List.findSome?_cons, memchr_none h2, List.findSome?_cons, memchr_found s h1]
  have hne : (t ++ LF :: s).isEmpty = false := by simp
  rw [readUntilAny, rest_after h, eof_after, hne, hf]
  exact take_after h dst h0 (LF :: s)

end BufferReader

/-! ## The token loop -/

namespace InlineParser

variable {pre rest w : Bytes} {cmd : Cmd}

theorem requestLoop_space (h : pre.length < 2 ^ 31) {t : Bytes} (h0 : t ≠ []) (h1 : 32 ∉ t) (n : Nat) (s : Bytes) :
    requestLoop (n + 1) cmd (.after pre (t ++ 32 :: s)) =
      requestLoop n (cmd ++ [t]) (.after (pre ++ (t ++ [32])) s) := by
  have hc : (32 : Byte) ≠ LF := by decide
  rw [requestLoop, BufferReader.readUntilAny_space h [] h0 h1 s]
  simp only [BufferReader.current_after, BufferReader.next_after, hc, if_false, List.nil_append,
    List.append_assoc]

/-- The loop passes any number of tokens that have a space behind them. -/
theorem requestLoop_tokens (ts : List Bytes) :
    ∀ (pre : Bytes) (cmd : Cmd) (n : Nat) (s : Bytes), (∀ t ∈ ts, IsToken t) →
    pre.length + (spaced ts).length < 2 ^ 31 →
    requestLoop (ts.length + n) cmd (.after pre (spaced ts ++ s)) =
      requestLoop n (cmd ++ ts) (.after (pre ++ spaced ts) s) := by
  induction ts with
  | nil => intro pre cmd n s _ _; simp [spaced]
  | cons t ts ih =>
    intro pre cmd n s ht h
    rw [spaced_cons, List.length_append, List.length_cons] at h
    have hfirst := ht t List.mem_cons_self
    rw [spaced_cons, List.length_cons, Nat.add_right_comm, List.append_assoc, List.cons_append,
      requestLoop_space (by omega) hfirst.ne_nil hfirst.space,
      ih _ _ _ _ (fun t' h' => ht t' (List.mem_cons_of_mem _ h'))
        (by simp only [List.length_append, List.length_singleton]; omega)]
    simp

/-- Nothing left, or no separator in what is left. -/
theorem requestLoop_stop (h : pre.length < 2 ^ 31) (h1 : 32 ∉ w) (h2 : LF ∉ w) (n : Nat) :
    requestLoop (n + 1) cmd (.after pre w) =
      (if w = [] then .outOfBound else .tryAgain, cmd, .after pre w) := by
  by_cases hw : w = []
  · subst hw; rw [requestLoop, BufferReader.readUntilAny_nil]; rfl
  · rw [requestLoop, BufferReader.readUntilAny_none h [] hw h1 h2, if_neg hw]

/-- The last token and its line end. -/
theorem requestLoop_last (h : pre.length < 2 ^ 31) {t s : Bytes} (ht : LF ∉ t)
    (hs : 32 ∉ t ++ crlf ++ s) (n : Nat) :
    requestLoop (n + 1) cmd (.after pre (t ++ crlf ++ s)) =
      (.ok, cmd ++ [t], .after (pre ++ (t ++ crlf)) s) := by
  have he : t ++ crlf ++ s = (t ++ [CR]) ++ LF :: s := by simp [crlf]
  have hl : LF ∉ t ++ [CR] := by
    rw [List.mem_append, not_or]; exact ⟨ht, by decide⟩
  have hlast : (BufferReader.after (pre ++ (t ++ [CR])) (LF :: s)).last = CR := by
    simp [BufferReader.last, BufferReader.after]
  rw [he, requestLoop, BufferReader.readUntilAny_lf h [] (by simp) hl (he ▸ hs)]
  simp only [BufferReader.current_after, BufferReader.next_after, if_true, hlast, List.nil_append]
  simp [Buffer.trim, crlf]

/-- One round passes at least one byte. -/
theorem readUntilAny_progress {r r' : BufferReader} {dst buf : Bytes} {chs : List Byte}
    (h : r.readUntilAny dst chs = (.ok, buf, r')) :
      r'.next.buffer = r.buffer ∧ r.offset < r'.next.offset := by
  unfold BufferReader.readUntilAny at h
  split at h
  · cases h
  · split at h
    · cases h
    · rename_i i hf
      obtain ⟨ch, _, hm⟩ := List.exists_of_findSome?_eq_some hf
      obtain ⟨line, s, hl, _, rfl⟩ := memchr_eq_some hm
      -- the delimiter is inside the buffer, so `Next` moves
      have hin : r.offset + line.length < r.buffer.length := by
        have hlen := congrArg List.length hl
        unfold BufferReader.rest Buffer.offset at hlen
        split at hlen
        · simp only [List.length_drop, List.length_append, List.length_cons] at hlen
          omega
        · simp at hlen
      unfold BufferReader.take at h
      split at h
      · obtain ⟨-, h⟩ := Prod.mk.inj h
        obtain ⟨-, rfl⟩ := Prod.mk.inj h
        have he : BufferReader.eof { r with offset := r.offset + line.length } = false := by
          simp only [BufferReader.eof, decide_eq_false_iff_not]; omega
        rw [BufferReader.next, he]
        exact ⟨rfl, by show r.offset < r.offset + line.length + 1; omega⟩
      · rename_i hno _
        exact (hno (Prod.mk.inj h).1).elim

/-- Fuel for every byte left is enough. -/
theorem requestLoop_enough (n : Nat) : ∀ (cmd : Cmd) (r : BufferReader), r.buffer.length ≤ n + r.offset →
    requestLoop (n + 2) cmd r = requestLoop (n + 1) cmd r := by
  induction n with
  | zero =>
    intro cmd r h
    have he : r.eof = true := by
      simp only [BufferReader.eof, decide_eq_true_eq]; omega
    have hr : r.readUntilAny [] splitSign = (.outOfBound, [], r) := by
      rw [BufferReader.readUntilAny, he]; rfl
    rw [requestLoop, hr, requestLoop, hr]
  | succ n ih =>
    intro cmd r h
    rw [requestLoop, requestLoop]
    split
    · rename_i buf r' hr
      obtain ⟨hb, ho⟩ := readUntilAny_progress hr
      split
      · rfl
      · exact ih _ _ (by rw [hb]; omega)
    · rfl
    · rfl

end InlineParser

/-! ## Positions -/

/-- The state the parser waits in after the prefix `p`: the tokens passed are in the
    command, `w` is unread. -/
inductive Typed (ts : List Bytes) : Bytes → CmdParser → Cmd → Prop
  | mk {done w} : done <+: ts → 32 ∉ w → LF ∉ w →
      Typed ts (spaced done ++ w) ⟨if spaced done ++ w = [] then .none else .inline, .reset, w, 0⟩ done

section Typed

variable {ts done : List Bytes} {last p c w : Bytes}

theorem typed_init (ts : List Bytes) : Typed ts [] .init [] :=
  .mk (List.nil_prefix) (List.not_mem_nil) (List.not_mem_nil)

theorem afterSpace_iff (hw : 32 ∉ w) : AfterSpace (spaced done ++ w) ↔ w = [] ∧ done ≠ [] := by
  unfold AfterSpace
  rcases List.eq_nil_or_concat w with rfl | ⟨w', b, rfl⟩
  · rcases List.eq_nil_or_concat done with rfl | ⟨done', t, rfl⟩
    · simp [spaced]
    · simp [spaced]
  · rw [List.concat_eq_append] at hw ⊢
    have hb : b ≠ 32 := fun e => hw (by simp [e])
    simp [hb]

/-- Where a proper prefix of a command ends. -/
theorem proper_inline (hts : ∀ t ∈ ts, IsToken t) (hl : IsToken last) (hp : Proper p (encodeInline ts last)) :
    ∃ done w, done <+: ts ∧ p = spaced done ++ w ∧ 32 ∉ w ∧ LF ∉ w := by
  rcases proper_append hp with h | ⟨w, rfl, hw⟩
  · obtain ⟨done, t, todo, w, rfl, rfl, hw⟩ := proper_flatMap h
    have ht := hts t (by simp)
    refine ⟨done, w, List.prefix_append _ _, rfl, hw.not_mem ht.space, fun hm => ?_⟩
    have := hw.isPrefix.subset hm
    rw [List.mem_append] at this
    rcases this with h | h
    · exact ht.lf h
    · exact absurd h (by decide)
  · have hl' : LF ∉ last ++ [CR] := by
      rw [List.mem_append, not_or]; exact ⟨hl.lf, by decide⟩
    have hw' : Proper w ((last ++ [CR]) ++ [LF]) := by simpa [crlf] using hw
    refine ⟨ts, w, List.prefix_refl ts, rfl, fun hm => ?_, hw'.not_mem hl'⟩
    have := hw'.isPrefix.subset hm
    simp only [List.mem_append] at this
    rcases this with (h | h) | h
    · exact hl.space h
    · exact absurd h (by decide)
    · exact absurd h (by decide)

/-- The tokens between two positions. -/
theorem spaced_between {done' : List Bytes} {u w' : Bytes} (h : done <+: ts) (h' : done' <+: ts)
    (hw : 32 ∉ w')
    (e : spaced done ++ u = spaced done' ++ w') : ∃ more, done' = done ++ more ∧ u = spaced more ++ w' := by
  rcases List.prefix_or_prefix_of_prefix h h' with ⟨more, rfl⟩ | ⟨more, rfl⟩
  · rw [spaced_append, List.append_assoc] at e
    exact ⟨more, rfl, List.append_cancel_left e⟩
  · rw [spaced_append, List.append_assoc] at e
    have e := List.append_cancel_left e
    cases more with
    | nil => exact ⟨[], by simp, by simpa [spaced] using e⟩
    | cons t more => exact absurd (by rw [← e, spaced_cons]; simp) hw

/-! ## One call -/

/-- What `ParseRequest` makes of `HandleRequest`, in inline mode. -/
theorem parseRequest_handOver {beyond : Bytes} {type : ParseType} {m : MultibulkParser} {cmd cmd' : Cmd}
    {input : Bytes} {e : Error} {r : BufferReader} (ht : type = .inline ∨ type = .none ∧ input.head? ≠ some 42)
    (h0 : input ≠ []) (hr : InlineParser.handleRequest cmd (.after [] input) = (e, cmd', r)) :
    CmdParser.parseRequest beyond ⟨type, m, input, 0⟩ cmd =
      (e, CmdParser.handOver ⟨.inline, m, input, 0⟩ r, cmd') := by
  obtain ⟨b, s, rfl⟩ := List.exists_cons_of_ne_nil h0
  have hr' : InlineParser.handleRequest cmd ⟨b :: s, 0⟩ = (e, cmd', r) := hr
  have hc : (⟨b :: s, 0⟩ : BufferReader).current = b := BufferReader.current_after [] b s
  have ht' : (if type = .none then (if b = 42 then .multibulk else .inline) else type) =
      ParseType.inline := by
    rcases ht with rfl | ⟨rfl, hb⟩
    · simp
    · simp only [List.head?_cons, ne_eq, Option.some.injEq] at hb
      simp [hb]
  simp only [CmdParser.parseRequest, hc, ht', hr']
  simp [BufferReader.eof]

theorem parseRequest_inline {beyond : Bytes} {type : ParseType} {m : MultibulkParser} {cmd cmd' : Cmd}
    {input : Bytes} (pre rest : Bytes)
    {e : Error} (ht : type = .inline ∨ type = .none ∧ input.head? ≠ some 42) (h0 : input ≠ [])
    (h : pre.length < 2 ^ 31)
    (hi : input = pre ++ rest) (hr : InlineParser.handleRequest cmd (.after [] input) =
      (e, cmd', .after pre rest)) :
    CmdParser.parseRequest beyond ⟨type, m, input, 0⟩ cmd = (e, ⟨.inline, m, rest, 0⟩, cmd') := by
  rw [parseRequest_handOver ht h0 hr, CmdParser.handOver_after .inline m h hi]

/-- The tokens `more` are there, then `s`. -/
theorem handleRequest_tokens {more : List Bytes} (cmd : Cmd) (s : Bytes) (hm : ∀ t ∈ more, IsToken t)
    (hpos : (spaced more).length < 2 ^ 31) :
    ∃ n, InlineParser.handleRequest cmd (.after [] (spaced more ++ s)) =
      InlineParser.requestLoop (n + 1) (cmd ++ more) (.after (spaced more) s) := by
  have hle := length_spaced more
  obtain ⟨n, hn⟩ : ∃ n, (spaced more ++ s).length = more.length + n := ⟨_, by
    rw [List.length_append]; exact (Nat.add_sub_cancel' (by omega)).symm⟩
  refine ⟨n, ?_⟩
  rw [InlineParser.handleRequest, BufferReader.after_buffer, List.nil_append, hn, Nat.add_assoc,
    InlineParser.requestLoop_tokens more [] cmd (n + 1) s hm (by simpa using hpos), List.nil_append]

/-- The mode while `p` of a command is delivered, as the next call finds it. -/
theorem inline_mode {e i : Bytes} (hstar : e.head? ≠ some 42) (h0 : i ≠ []) (he : i <+: e ∨ p ≠ []) :
    (if p = [] then ParseType.none else .inline) = .inline ∨
      (if p = [] then ParseType.none else .inline) = .none ∧ i.head? ≠ some 42 := by
  by_cases hp : p = []
  · obtain ⟨t, rfl⟩ := he.resolve_right (fun h => h hp)
    obtain ⟨b, s, rfl⟩ := List.exists_cons_of_ne_nil h0
    rw [if_pos hp]
    exact Or.inr ⟨rfl, hstar⟩
  · rw [if_neg hp]
    exact Or.inl rfl

/-- A call that finds bytes, short of the end of the command. -/
theorem inline_stops {beyond : Bytes} (hd : done <+: ts) (hts : ∀ t ∈ ts, IsToken t) (hl : IsToken last)
    (hstar : (encodeInline ts last).head? ≠ some 42) (h0 : w ++ c ≠ []) (hpos : (w ++ c).length < 2 ^ 31)
    (hp : Proper (spaced done ++ (w ++ c)) (encodeInline ts last)) :
    Stops (Typed ts) AfterSpace (spaced done ++ (w ++ c)) (CmdParser.parseRequest beyond
      ⟨if spaced done ++ w = [] then .none else .inline, .reset, w ++ c, 0⟩ done) := by
  have hmode := inline_mode (p := spaced done ++ w) hstar h0 (by
    by_cases h : spaced done ++ w = []
    · rw [(List.append_eq_nil_iff.mp h).1] at hp; exact Or.inl hp.isPrefix
    · exact Or.inr h)
  obtain ⟨done', w', hd', he, hw1', hw2'⟩ := proper_inline hts hl hp
  obtain ⟨more, rfl, hi⟩ := spaced_between hd hd' hw1' he
  have hm : ∀ t ∈ more, IsToken t := fun t ht => hts t (hd'.subset (List.mem_append_right _ ht))
  rw [hi, List.length_append] at hpos
  obtain ⟨n, hr⟩ := handleRequest_tokens done w' hm (by omega)
  rw [InlineParser.requestLoop_stop (by omega) hw1' hw2', ← hi] at hr
  rw [parseRequest_inline (spaced more) w' hmode h0 (by omega) hi hr, he]
  have hne : spaced (done ++ more) ++ w' ≠ [] := by
    rw [← he]; exact fun e => h0 (List.append_eq_nil_iff.mp e).2
  have hs := Typed.mk hd' hw1' hw2'
  rw [if_neg hne] at hs
  refine ⟨hs, ?_, ?_⟩
  · show (if w' = [] then Error.outOfBound else .tryAgain) = .tryAgain ∨ _
    split
    · exact Or.inr rfl
    · exact Or.inl rfl
  · show (if w' = [] then Error.outOfBound else .tryAgain) = .outOfBound ↔ _
    rw [afterSpace_iff hw1']
    by_cases hw0 : w' = []
    · rw [if_pos hw0]
      refine iff_of_true rfl ⟨hw0, fun h => hne ?_⟩
      rw [h, hw0]; rfl
    · rw [if_neg hw0]
      exact iff_of_false (by simp) fun h => hw0 h.1

/-- A call on one more chunk, short of the end of the command. -/
theorem inline_part {beyond : Bytes} {P : CmdParser} {cmd : Cmd} (hs : Typed ts p P cmd)
    (hts : ∀ t ∈ ts, IsToken t) (hl : IsToken last)
    (hstar : (encodeInline ts last).head? ≠ some 42) (hpos : (P.inputb ++ c).length < 2 ^ 31)
    (hp : Proper (p ++ c) (encodeInline ts last)) (hc : c = [] → ¬ AfterSpace p) :
    Stops (Typed ts) AfterSpace (p ++ c) (CmdParser.parseRequest beyond (P.feed c) cmd) := by
  cases hs with
  | @mk _ w hd hw1 hw2 =>
    by_cases h0 : w ++ c = []
    · obtain ⟨rfl, rfl⟩ := List.append_eq_nil_iff.mp h0
      simp only [CmdParser.feed, CmdParser.parseRequest_nil, List.append_nil]
      have hs := Typed.mk hd hw1 hw2
      rw [List.append_nil] at hs hc
      exact ⟨hs, Or.inl rfl, iff_of_false (by simp) (hc rfl)⟩
    · rw [List.append_assoc] at hp ⊢
      exact inline_stops hd hts hl hstar h0 hpos hp

end Typed

end RedisProxy.Wire
