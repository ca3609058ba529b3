/-
  RedisProxy.Client.Empty — commands without arguments.

  Redis answers no command that has no arguments, so one that is forwarded leaves an
  entry in the queue that no reply is for. `ParseRequest` returns one in two cases: a
  count line that reads as a number that is not positive, and a call on a parser that
  has all its arguments already (`NoArguments`). The second is what the retry of a
  refused command leads to, which does not reset the parser.

  Proved: `pushed_nonempty`, over every run: every pushed command has an argument
  exactly when no `ParseRequest` call is made in one of these states.
-/

import RedisProxy.Client.Session

namespace RedisProxy.Client

open Lib.Decimal Wire Net

/-! ## When ParseRequest returns an empty command -/

/-- A count line that does not ask for an argument. -/
def EmptyCount (beyond : Bytes) (index : Int) (input : Bytes) : Prop :=
  ∃ line rest, input = line ++ LF :: rest ∧ LF ∉ line ∧ parseInt32 (line ++ [LF]) 1 (rest ++ beyond) ≤ index

/-- The arguments the parser knows of are all there, or a count line comes that asks for none. -/
structure NoArguments (beyond : Bytes) (p : CmdParser) : Prop where
  input : p.inputb ≠ []
  mode : p.parseType = .multibulk ∨ p.parseType = .none ∧ p.inputb.head? = some 42
  count : if p.multibulkParser.multibulkLen = 0
    then EmptyCount beyond p.multibulkParser.multibulkIndex p.inputb
    else p.multibulkParser.multibulkLen ≤ p.multibulkParser.multibulkIndex

section Parse

variable {beyond : Bytes}

/-- The loop adds one argument a round. -/
theorem requestLoop_length (n : Nat) : ∀ (m : MultibulkParser) (cmd : Cmd) (r : BufferReader),
    (MultibulkParser.requestLoop beyond n m cmd r).1 = .ok →
    (MultibulkParser.requestLoop beyond n m cmd r).2.2.1.length = cmd.length + n := by
  induction n with
  | zero => intro m cmd r _; rfl
  | succ n ih =>
    intro m cmd r
    unfold MultibulkParser.requestLoop
    split
    · split
      · intro h
        rw [ih _ _ _ h, List.length_append, List.length_singleton]
        omega
      · intro h; cases h
      · rename_i hno _ _
        exact fun h => (hno h).elim
    · rename_i hno _
      exact fun h => (hno h).elim

theorem handleRequest_empty (m : MultibulkParser) {input : Bytes} :
    ((m.handleRequest beyond [] (.after [] input)).1 = .ok ∧
      (m.handleRequest beyond [] (.after [] input)).2.2.1 = []) ↔
      if m.multibulkLen = 0 then EmptyCount beyond m.multibulkIndex input
        else m.multibulkLen ≤ m.multibulkIndex := by
  -- with the count known, the loop makes no round exactly if nothing is left to read
  have hloop : ∀ (len : Int) (r : BufferReader),
      ((MultibulkParser.requestLoop beyond
        (len - m.multibulkIndex).toNat { m with multibulkLen := len } [] r).1 = .ok ∧
        (MultibulkParser.requestLoop beyond
          (len - m.multibulkIndex).toNat { m with multibulkLen := len } [] r).2.2.1 = []) ↔
      len ≤ m.multibulkIndex := by
    intro len r
    constructor
    · rintro ⟨hok, he⟩
      have hl := requestLoop_length _ _ _ _ hok
      rw [he] at hl
      simp only [List.length_nil, Nat.zero_add] at hl
      omega
    · intro hle
      rw [show (len - m.multibulkIndex).toNat = 0 by omega]
      exact ⟨rfl, rfl⟩
  unfold MultibulkParser.handleRequest MultibulkParser.readLen
  by_cases h0 : m.multibulkLen = 0
  · rw [if_pos h0, if_pos h0]
    constructor
    · intro h
      split at h
      · rename_i len _ r hl
        obtain ⟨_, line, s, rfl, hline, rfl, _, _⟩ := MultibulkParser.readInt32_ok beyond _ _ hl
        exact ⟨line, s, rfl, hline, (hloop _ _).mp h⟩
      · rename_i hno _
        exact (hno h.1).elim
    · rintro ⟨line, rest, rfl, hline, hle⟩
      rw [MultibulkParser.readInt32_line beyond _ none (by decide) hline]
      exact (hloop _ _).mpr hle
  · rw [if_neg h0, if_neg h0]
    exact hloop _ _

theorem parseRequest_empty {p : CmdParser} (hp : p.AtRest) :
    ((p.parseRequest beyond []).1 = .ok ∧ (p.parseRequest beyond []).2.2 = []) ↔ NoArguments beyond p := by
  obtain ⟨type, m, input, start⟩ := p
  obtain rfl : start = 0 := hp.start
  by_cases h0 : input = []
  · subst h0
    rw [CmdParser.parseRequest_nil]
    exact iff_of_false (fun h => by cases h.1) (fun h => h.input rfl)
  by_cases ht : type = .multibulk ∨ type = .none ∧ input.head? = some 42
  · rw [CmdParser.parseRequest_handle m [] ht h0, handleRequest_empty]
    exact ⟨fun h => ⟨h0, ht, h⟩, fun h => h.count⟩
  · refine iff_of_false (fun h => ?_) (fun h => ht h.mode)
    obtain ⟨b, s, rfl⟩ := List.exists_cons_of_ne_nil h0
    have hc : (⟨b :: s, 0⟩ : BufferReader).current = b := BufferReader.current_after [] b s
    have htype : (if type = .none then (if b = 42 then .multibulk else .inline) else type) ≠
        ParseType.multibulk := by
      rw [not_or, not_and] at ht
      split
      · rename_i hn
        rw [if_neg (by simpa using ht.2 hn)]
        decide
      · exact ht.1
    have heof : (⟨b :: s, 0⟩ : BufferReader).eof = false := rfl
    simp only [CmdParser.parseRequest, heof, Bool.false_eq_true, if_false, hc, if_neg htype] at h
    exact ((InlineParser.requestLoop_onward _ [] ⟨b :: s, 0⟩).2 h.1).2 h.2

end Parse

/-! ## Over a run -/

namespace Peer

variable {U : Type} {push : U → Cmd → Error × U} {beyond : Bytes}

/-- Every pushed command has an argument. -/
def Nonempty (calls : List Call) : Prop := ∀ cmd e, .push cmd e ∈ calls → cmd ≠ []

/-- No `ParseRequest` call is made in a state where it returns an empty command. -/
def Asked (calls : List Call) : Prop := ∀ p beyond e, .parse p beyond e ∈ calls → ¬ NoArguments beyond p

@[simp] theorem nonempty_push (l : List Call) (cmd : Cmd) (e : Error) :
    Nonempty (l ++ [.push cmd e]) ↔ Nonempty l ∧ cmd ≠ [] := by
  simp only [Nonempty, List.mem_append, List.mem_singleton, Call.push.injEq]
  constructor
  · exact fun h => ⟨fun c e' hm => h c e' (Or.inl hm), h cmd e (Or.inr ⟨rfl, rfl⟩)⟩
  · rintro ⟨h, hne⟩ c e' (hm | ⟨rfl, _⟩)
    · exact h c e' hm
    · exact hne

@[simp] theorem nonempty_parse (l : List Call) (p : CmdParser) (b : Bytes) (e : Error) :
    Nonempty (l ++ [.parse p b e]) ↔ Nonempty l := by simp [Nonempty]

@[simp] theorem nonempty_reset (l : List Call) : Nonempty (l ++ [.reset]) ↔ Nonempty l := by simp [Nonempty]

@[simp] theorem asked_push (l : List Call) (cmd : Cmd) (e : Error) :
    Asked (l ++ [.push cmd e]) ↔ Asked l := by simp [Asked]

@[simp] theorem asked_reset (l : List Call) : Asked (l ++ [.reset]) ↔ Asked l := by simp [Asked]

@[simp] theorem asked_parse (l : List Call) (p : CmdParser) (b : Bytes) (e : Error) :
    Asked (l ++ [.parse p b e]) ↔ Asked l ∧ ¬ NoArguments b p := by
  simp only [Asked, List.mem_append, List.mem_singleton, Call.parse.injEq]
  constructor
  · exact fun h => ⟨fun q b' e' hm => h q b' e' (Or.inl hm), h p b e (Or.inr ⟨rfl, rfl, rfl⟩)⟩
  · rintro ⟨h, hne⟩ q b' e' (hm | ⟨rfl, rfl, _⟩)
    · exact h q b' e' hm
    · exact hne

/-- The loop's head: no command, and no empty one pushed unless asked for. -/
structure Clear (c : Peer U) : Prop where
  rest : c.session.parser.AtRest
  cmd : c.session.currentCmd = []
  same : Nonempty c.calls ↔ Asked c.calls

/-- A `ParseRequest` call of the loop that does not return `OK` is not one of these. -/
theorem asked_of_error {c : Peer U} (h : Clear c) (he : (c.parseRequest beyond).1 ≠ .ok) :
    ¬ NoArguments beyond c.session.parser := by
  rw [← parseRequest_empty h.rest]
  intro hn
  unfold parseRequest at he
  rw [h.cmd] at he
  exact he hn.1

/-- What the loop pushes has an argument unless the call was one of these. -/
theorem cmd_of_ok {c : Peer U} (h : Clear c) (he : (c.parseRequest beyond).1 = .ok) :
    (c.parseRequest beyond).2.session.currentCmd ≠ [] ↔ ¬ NoArguments beyond c.session.parser := by
  rw [← parseRequest_empty h.rest]
  unfold parseRequest at he ⊢
  rw [h.cmd] at he ⊢
  rw [not_and]
  exact ⟨fun hne _ => hne, fun hne => hne he⟩

theorem same_parse {c : Peer U} (h : Clear c) (he : (c.parseRequest beyond).1 ≠ .ok) :
    Nonempty (c.parseRequest beyond).2.calls ↔ Asked (c.parseRequest beyond).2.calls := by
  have ha := asked_of_error h he
  simp only [parseRequest, nonempty_parse, asked_parse, h.same, ha, not_false_eq_true, and_true]

theorem same_push {c : Peer U} (h : Clear c) (he : (c.parseRequest beyond).1 = .ok) :
    Nonempty ((c.parseRequest beyond).2.pushRequest push).2.calls ↔
      Asked ((c.parseRequest beyond).2.pushRequest push).2.calls := by
  have hc := cmd_of_ok h he
  simp only [pushRequest, nonempty_push, asked_push, hc]
  simp only [parseRequest, nonempty_parse, asked_parse, h.same]

theorem clear_round : Round push beyond (Clear (U := U)) (fun _ c => Nonempty c.calls ↔ Asked c.calls) where
  drained _ h _ := h.same
  waits c h _ he := same_parse h (by rw [he]; decide)
  fails c e h _ he hok _ := same_parse h (by rw [he]; exact hok)
  refuses c e h _ he _ _ := by
    rw [refused_calls]
    exact same_push h he
  accepts c h _ he _ := by
    refine ⟨atRest_next h.rest, rfl, ?_⟩
    simp only [resetCmd, resetParser, nonempty_reset, asked_reset]
    exact same_push h he

theorem clear_read (_ : Prop) (c : Peer U) (chunk : Bytes × Bytes) (hc : c.session.parser.AtRest)
    (h : Nonempty c.calls ↔ Asked c.calls) :
    Nonempty (c.onReadable push chunk).calls ↔ Asked (c.onReadable push chunk).calls := by
  refine onClientRead_rule clear_round (hc.feed chunk.1) (fun h0 => ⟨hc.feed chunk.1, h0, h⟩) ?_ ?_
  · intro e h0 _ _
    rw [refused_calls]
    simp only [pushRequest, nonempty_push, asked_push]
    rw [and_iff_left h0]
    exact h
  · intro h0 _
    refine ⟨hc.feed chunk.1, rfl, ?_⟩
    simp only [resetCmd, pushRequest, nonempty_reset, nonempty_push, asked_reset, asked_push]
    rw [and_iff_left h0]
    exact h

/-- Over every run: the pushed commands have arguments exactly when no `ParseRequest`
    call is made where it returns an empty one. -/
theorem pushed_nonempty (push : U → Cmd → Error × U) (id clientConn : Nat) (u : U)
    (chunks : List (Bytes × Bytes)) :
    Nonempty ((start id clientConn u).run push chunks).calls ↔
      Asked ((start id clientConn u).run push chunks).calls :=
  run_rule (P := fun _ _ => True) (J := fun _ c => Nonempty c.calls ↔ Asked c.calls) clear_read chunks True
    (start id clientConn u) CmdParser.atRest_init
      (iff_of_true (fun _ _ h => by cases h) (fun _ _ _ h => by cases h))

/-- `*0` is a command without arguments, and it is pushed. -/
theorem pushed_zero :
    ¬ Nonempty ((start 1 0 ()).run (fun _ _ => (.ok, ())) [([42, 48, 13, 10], [])]).calls := by
  intro h
  exact h [] .ok (by decide) rfl

end Peer

end RedisProxy.Client
