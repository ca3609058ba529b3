/-
  RedisProxy.Client.Backpressure — what is forwarded when pushes are refused.

  The client sends complete commands, a read brings any number of them (`Batch`). The
  refused command stays in `currentCmd_` and the parser is not reset; when a later read
  gets the command accepted, only the command is reset. The parser still has its mode
  and its counters, all arguments read (`returned`). The next bytes are given to it: it
  returns `OK` at once, without an argument, and an empty command is pushed.

  Proved: `backpressure`, over every run: while each read finds a parser without a mode,
  or no bytes, the accepted commands are the sent ones up to the refused one, and all of
  them where nothing is left over; and no other run of commands with arguments ends so.
-/

import RedisProxy.Client.Session
import RedisProxy.Wire.Request

namespace RedisProxy.Client

open Lib.Decimal Wire Net

/-- Commands sent together, and the memory behind the input when they arrive. -/
abbrev Batch := List Cmd × Bytes

def Batch.chunk (b : Batch) : Bytes × Bytes := (b.1.flatMap (fun argv => argv.formatRESP2 []), b.2)

def sentBy (batches : List Batch) : List Cmd := batches.flatMap (·.1)

theorem chunk_eq (b : Batch) : b.chunk = (b.1.flatMap encode, b.2) := by
  simp [Batch.chunk, formatRESP2_eq]

theorem encode_ne_nil (argv : Cmd) : encode argv ≠ [] := by
  simp [encode, countLine_ne_nil]

theorem flatMap_encode_eq_nil {cmds : List Cmd} : cmds.flatMap encode = [] ↔ cmds = [] := by
  cases cmds <;> simp [encode_ne_nil]

namespace Peer

variable {U : Type} {push : U → Cmd → Error × U} {beyond : Bytes}

def accepted (calls : List Call) : List Cmd :=
  calls.filterMap fun
    | .push cmd .ok => some cmd
    | _ => none

/-- Nothing is left of what was sent: no unread byte, no refusal. -/
def Handled (c : Peer U) : Prop := c.session.parser.inputb = [] ∧ ¬ Refused c.calls

/-- The parser has no mode, or the read brings nothing to parse. -/
def Fresh (c : Peer U) (chunk : Bytes) : Prop :=
  c.session.parser.parseType = .none ∨ c.session.parser.inputb ++ chunk = []

@[simp] theorem accepted_parse (l : List Call) (p : CmdParser) (b : Bytes) (e : Error) :
    accepted (l ++ [.parse p b e]) = accepted l := by simp [accepted]

@[simp] theorem accepted_reset (l : List Call) : accepted (l ++ [.reset]) = accepted l := by simp [accepted]

@[simp] theorem accepted_ok (l : List Call) (cmd : Cmd) :
    accepted (l ++ [.push cmd .ok]) = accepted l ++ [cmd] := by simp [accepted]

theorem accepted_refused (l : List Call) (cmd : Cmd) {e : Error} (he : e ≠ .ok) :
    accepted (l ++ [.push cmd e]) = accepted l := by
  cases e <;> first | exact absurd rfl he | simp [accepted]

/-! ## Positions between reads -/

/-- A parser that has returned `argv` and was not reset, `unread` before it. -/
def Left (c : Peer U) (argv : Cmd) (unread : Bytes) : Prop := c.session.parser = returned argv unread

/-- What a read leaves of `sent`: nothing, or a refused command and those behind it. -/
inductive Stands (sent : List Cmd) (c : Peer U) : Prop
  | idle (rest : c.session.parser = .init ∨ ∃ argv, argv ≠ [] ∧ c.Left argv [])
    (cmd : c.session.currentCmd = [])
      (fine : ¬ Refused c.calls) (all : accepted c.calls = sent)
  | stuck (argv : Cmd) (todo : List Cmd) (left : c.Left argv (todo.flatMap encode))
    (cmd : c.session.currentCmd = argv)
      (refusal : Refused c.calls) (all : accepted c.calls ++ argv :: todo = sent)

/-- The loop's head while it works off `sent`. -/
structure Works (sent : List Cmd) (c : Peer U) : Prop where
  cmd : c.session.currentCmd = []
  fine : ¬ Refused c.calls
  todo : ∃ todo, c.session.parser = ⟨.none, .reset, todo.flatMap encode, 0⟩ ∧
    accepted c.calls ++ todo = sent ∧
    ∀ argv ∈ todo, (encode argv).length < 2 ^ 31

/-- A loop that finds a command takes it whole. -/
theorem works_parse (beyond : Bytes) {sent : List Cmd} {c : Peer U} (h : Works sent c)
    (h0 : c.session.parser.inputb ≠ []) :
    ∃ argv todo, (c.parseRequest beyond).1 = .ok ∧ (c.parseRequest beyond).2.session.currentCmd = argv ∧
      (c.parseRequest beyond).2.Left argv (todo.flatMap encode) ∧
      accepted (c.parseRequest beyond).2.calls ++ argv :: todo = sent ∧
        ∀ a ∈ todo, (encode a).length < 2 ^ 31 := by
  obtain ⟨todo, hp, hall, hsize⟩ := h.todo
  cases todo with
  | nil => rw [hp] at h0; exact absurd rfl h0
  | cons argv todo =>
    have hr := parseRequest_encode (hsize argv (by simp)) beyond (todo.flatMap encode)
    rw [← List.flatMap_cons (f := encode), ← hp, ← h.cmd] at hr
    refine ⟨argv, todo, ?_, ?_, ?_, ?_, fun a ha => hsize a (List.mem_cons_of_mem _ ha)⟩
    · rw [parseRequest, hr]
    · rw [parseRequest, hr]
    · rw [Left, parseRequest, hr]
    · rw [parseRequest, accepted_parse, hall]

theorem works_round (sent : List Cmd) : Round push beyond (Works (U := U) sent) (fun _ => Stands sent) where
  drained c h h0 := by
    obtain ⟨todo, hp, hall, _⟩ := h.todo
    have ht : todo = [] := by rw [hp] at h0; exact flatMap_encode_eq_nil.mp h0
    subst ht
    exact .idle (Or.inl hp) h.cmd h.fine (by simpa using hall)
  waits c h h0 he := by
    obtain ⟨_, _, hok, _⟩ := works_parse beyond h h0
    rw [hok] at he; cases he
  fails c e h h0 he hne _ := by
    obtain ⟨_, _, hok, _⟩ := works_parse beyond h h0
    exact absurd (he.symm.trans hok) hne
  refuses c e h h0 _ hq hne := by
    obtain ⟨argv, todo, _, hcmd, hleft, hall, _⟩ := works_parse beyond h h0
    refine .stuck argv todo ?_ ?_ ?_ ?_
    · rw [Left, refused_session]; exact hleft
    · rw [refused_session]; exact hcmd
    · simp only [pushRequest] at hq
      rw [refused_calls, pushRequest, refused_push, hq]
      exact hne
    · simp only [pushRequest] at hq
      rw [refused_calls, pushRequest, accepted_refused _ _ (by rw [hq]; exact hne)]
      exact hall
  accepts c h h0 _ hq := by
    obtain ⟨argv, todo, _, hcmd, hleft, hall, hsize⟩ := works_parse beyond h h0
    refine ⟨rfl, by simp [resetCmd], todo, ?_, ?_, hsize⟩
    · have hp : ((c.parseRequest beyond).2.pushRequest push).2.session.parser =
        returned argv (todo.flatMap encode) := hleft
      simp only [resetCmd, resetParser, hp]
      rfl
    · simp only [pushRequest] at hq
      show accepted (((c.parseRequest beyond).2.pushRequest push).2.calls ++ [.reset]) ++ todo = sent
      rw [accepted_reset, pushRequest, hq, accepted_ok, hcmd, List.append_assoc]
      exact hall

/-! ## A read of whole commands -/

/-- Nothing to push again, nothing to parse. -/
theorem onReadable_nothing {c : Peer U} (hc : c.session.currentCmd = [])
    (h0 : c.session.parser.inputb = []) (beyond : Bytes) :
    c.onReadable push ([], beyond) = c := by
  have hf : c.session.parser.feed [] = c.session.parser := by simp [CmdParser.feed]
  have hr : ∀ n, c.rounds ≤ n + 1 → readLoop push beyond c.rounds c = (.ok, c) := by
    intro n _
    obtain ⟨k, hk⟩ : ∃ k, c.rounds = k + 1 := ⟨c.rounds - 1, by unfold rounds; split <;> omega⟩
    rw [hk, readLoop, if_pos h0]
  rw [onReadable, hf, onClientRead, if_pos hc, hr _ (Nat.le_succ _)]

theorem drained_round (Q : Peer U → Prop) :
    Round push beyond (fun c => c.session.parser.inputb = [] ∧ Q c) (fun _ => Q) where
  drained _ h _ := h.2
  waits _ h h0 _ := absurd h.1 h0
  fails _ _ h h0 _ _ _ := absurd h.1 h0
  refuses _ _ h h0 _ _ _ := absurd h.1 h0
  accepts _ h h0 _ _ := absurd h.1 h0

theorem left_atRest {c : Peer U} {argv : Cmd} {unread : Bytes} (h : c.Left argv unread) :
    c.session.parser.AtRest := by
  rw [h]; exact ⟨rfl, fun hn => by cases hn⟩

/-- A read that finds a parser without a mode, or no bytes, goes on where the last one ended. -/
theorem stands_read {sent : List Cmd} {c : Peer U} (h : Stands sent c) (b : Batch)
    (hsize : ∀ argv ∈ b.1, (encode argv).length < 2 ^ 31)
    (hf : Fresh c b.chunk.1) : Stands (sent ++ b.1) (c.onReadable push b.chunk) := by
  rw [chunk_eq] at hf ⊢
  have hnil : ∀ argv unread, c.Left argv unread → unread = [] ∧ b.1 = [] := by
    intro argv unread hl
    have := hf.resolve_left (by rw [hl]; exact fun h => by cases h)
    rwa [hl, List.append_eq_nil_iff, flatMap_encode_eq_nil] at this
  cases h with
  | idle rest cmd fine all =>
    rcases rest with hp | ⟨argv, hne, hl⟩
    · have hrest : (c.session.parser.feed (b.1.flatMap encode)).AtRest := by
        rw [hp]; exact CmdParser.atRest_init.feed _
      refine onClientRead_rule (works_round (sent ++ b.1)) hrest (fun _ => ⟨cmd, fine, b.1, ?_, ?_, hsize⟩)
        (fun _ h0 => absurd cmd h0) (fun h0 => absurd cmd h0)
      · show c.session.parser.feed _ = _
        rw [hp]; rfl
      · show accepted c.calls ++ b.1 = sent ++ b.1
        rw [all]
    · obtain ⟨-, hb⟩ := hnil _ _ hl
      rw [hb, List.flatMap_nil, onReadable_nothing cmd (by rw [hl]; rfl), List.append_nil]
      exact .idle (Or.inr ⟨argv, hne, hl⟩) cmd fine all
  | stuck argv todo hl cmd refusal all =>
    obtain ⟨ht, hb⟩ := hnil _ _ hl
    have hin : c.session.parser.inputb = [] := by rw [hl]; exact ht
    rw [hb, List.flatMap_nil, List.append_nil]
    by_cases h0 : argv = []
    · rw [onReadable_nothing (cmd.trans h0) hin]
      exact .stuck argv todo hl cmd refusal all
    · have hf : c.session.parser.feed [] = c.session.parser := by simp [CmdParser.feed]
      rw [onReadable, hf]
      -- the command is pushed again, and nothing follows it
      obtain rfl : todo = [] := flatMap_encode_eq_nil.mp ht
      refine onClientRead_rule (drained_round (Stands sent)) (left_atRest hl)
        (fun hc => absurd (cmd.symm.trans hc) h0) ?_ ?_
      · intro e _ he hne
        simp only [pushRequest] at he
        refine .stuck argv [] ?_ ?_ ?_ ?_
        · rw [Left, refused_session]; exact hl
        · rw [refused_session]; exact cmd
        · rw [refused_calls, pushRequest, refused_push, he]; exact hne
        · rw [refused_calls, pushRequest, accepted_refused _ _ (by rw [he]; exact hne)]
          exact all
      · intro _ he
        simp only [pushRequest] at he
        refine ⟨hin, .idle (Or.inr ⟨argv, h0, hl⟩) rfl (by simp [resetCmd]) ?_⟩
        show accepted ((c.pushRequest push).2.calls ++ [.reset]) = sent
        rw [accepted_reset, pushRequest, he, accepted_ok, cmd]
        exact all

/-! ## A read that finds bytes before a parser not reset -/

/-- An empty command was accepted, or the next push is one. -/
def Off (c : Peer U) : Prop :=
  [] ∈ accepted c.calls ∨ ∃ argv unread, argv ≠ [] ∧ unread ≠ [] ∧ c.Left argv unread

theorem accepted_mono {cmd : Cmd} {l : List Call} (h : cmd ∈ accepted l) (l' : List Call) :
    cmd ∈ accepted (l ++ l') := by
  rw [accepted, List.filterMap_append]
  exact List.mem_append_left _ h

/-- A parser with all its arguments returns at once. -/
theorem parseRequest_returned (beyond : Bytes) {argv : Cmd} {unread : Bytes} (h : argv ≠ [])
    (h0 : unread ≠ []) :
    CmdParser.parseRequest beyond (returned argv unread) [] = (.ok, returned argv unread, []) := by
  have hr := MultibulkParser.handleRequest_resume beyond (n := argv.length) (i := argv.length) (k := 0)
    (by simpa using h) rfl 0 [] (.after [] unread)
  exact CmdParser.parseRequest_multibulk [] unread (Or.inl rfl) h0 (by simp) rfl hr

/-- The loop's head, off. -/
def OffHead (c : Peer U) : Prop :=
  [] ∈ accepted c.calls ∨ c.session.currentCmd = [] ∧ ∃ argv unread, argv ≠ [] ∧ unread ≠ [] ∧
    c.Left argv unread

theorem offHead_parse {c : Peer U} {argv : Cmd} {unread : Bytes} (hc : c.session.currentCmd = [])
    (h : argv ≠ []) (h0 : unread ≠ [])
    (hl : c.Left argv unread) :
    (c.parseRequest beyond).1 = .ok ∧ (c.parseRequest beyond).2.session.currentCmd = [] ∧
      (c.parseRequest beyond).2.Left argv unread := by
  have hr := parseRequest_returned beyond h h0
  rw [← hl, ← hc] at hr
  refine ⟨?_, ?_, ?_⟩
  · rw [parseRequest, hr]
  · rw [parseRequest, hr]; exact hc
  · rw [Left, parseRequest, hr]; exact hl

theorem off_round : Round push beyond (OffHead (U := U)) (fun _ => Off) where
  drained c h h0 := by
    rcases h with h | ⟨_, argv, unread, _, hne, hl⟩
    · exact Or.inl h
    · rw [hl] at h0; exact absurd h0 hne
  waits c h _ he := by
    rcases h with h | ⟨hc, argv, unread, hargv, hne, hl⟩
    · exact Or.inl (accepted_mono h _)
    · rw [(offHead_parse hc hargv hne hl).1] at he; cases he
  fails c e h _ he hok _ := by
    rcases h with h | ⟨hc, argv, unread, hargv, hne, hl⟩
    · exact Or.inl (accepted_mono h _)
    · exact absurd (he.symm.trans (offHead_parse hc hargv hne hl).1) hok
  refuses c e h _ _ _ _ := by
    rcases h with h | ⟨hc, argv, unread, hargv, hne, hl⟩
    · rw [Off, refused_calls]
      exact Or.inl (accepted_mono (accepted_mono h _) _)
    · refine Or.inr ⟨argv, unread, hargv, hne, ?_⟩
      rw [Left, refused_session]
      exact (offHead_parse hc hargv hne hl).2.2
  accepts c h _ _ hq := by
    refine Or.inl ?_
    show [] ∈ accepted (((c.parseRequest beyond).2.pushRequest push).2.calls ++ [.reset])
    rw [accepted_reset]
    rcases h with h | ⟨hc, argv, unread, hargv, hne, hl⟩
    · exact accepted_mono (accepted_mono h _) _
    · simp only [pushRequest] at hq
      rw [pushRequest, hq, accepted_ok, (offHead_parse hc hargv hne hl).2.1]
      simp

theorem off_read {c : Peer U} {argv : Cmd} {unread : Bytes} {chunk : Bytes × Bytes} (h : argv ≠ [])
    (hl : c.Left argv unread)
    (h0 : unread ++ chunk.1 ≠ []) : Off (c.onReadable push chunk) := by
  have hl' : c.session.parser.feed chunk.1 = returned argv (unread ++ chunk.1) := by rw [hl]; rfl
  refine onClientRead_rule off_round ((left_atRest hl).feed chunk.1)
    (fun hc => Or.inr ⟨hc, argv, _, h, h0, hl'⟩) ?_
    (fun _ _ => Or.inr ⟨rfl, argv, _, h, h0, hl'⟩)
  intro e _ _ _
  refine Or.inr ⟨argv, _, h, h0, ?_⟩
  rw [Left, refused_session]
  exact hl'

theorem off_stays {c : Peer U} (h : Off c) (hc : c.session.parser.AtRest) (chunk : Bytes × Bytes) :
    Off (c.onReadable push chunk) := by
  rcases h with h | ⟨argv, unread, hargv, hne, hl⟩
  · refine onClientRead_rule off_round (hc.feed chunk.1) (fun _ => Or.inl h) ?_
      (fun _ _ => Or.inl (accepted_mono (accepted_mono h _) _))
    intro e _ _ _
    rw [Off, refused_calls]
    exact Or.inl (accepted_mono h _)
  · exact off_read hargv hl (by simp [hne])

/-! ## Over a run -/

theorem stands_atRest {sent : List Cmd} {c : Peer U} (h : Stands sent c) : c.session.parser.AtRest := by
  cases h with
  | idle rest =>
    rcases rest with hp | ⟨argv, _, hl⟩
    · rw [hp]; exact CmdParser.atRest_init
    · exact left_atRest hl
  | stuck argv todo hl => exact left_atRest hl

theorem stands_run : ∀ (batches : List Batch) (sent : List Cmd) (c : Peer U), Stands sent c →
    (∀ argv ∈ sentBy batches, (encode argv).length < 2 ^ 31) →
      c.EachRead push Fresh (batches.map Batch.chunk) →
    Stands (sent ++ sentBy batches) (c.run push (batches.map Batch.chunk)) := by
  intro batches
  induction batches with
  | nil => intro sent c h _ _; simpa [sentBy, run] using h
  | cons b batches ih =>
    intro sent c h hsize hf
    have hb : ∀ argv ∈ b.1, (encode argv).length < 2 ^ 31 :=
      fun argv ha => hsize argv (by simp [sentBy]; exact Or.inl ha)
    have := ih (sent ++ b.1) _ (stands_read h b hb hf.1) (fun argv ha => hsize argv (by
      rw [sentBy, List.flatMap_cons]; exact List.mem_append_right _ ha)) hf.2
    rwa [List.append_assoc] at this

theorem off_run (chunks : List (Bytes × Bytes)) (c : Peer U) (h : Off c)
    (hc : c.session.parser.AtRest) : Off (c.run push chunks) :=
  run_rule (P := fun _ _ => True) (J := fun _ => Off)
    (fun _ _ chunk hc h => off_stays h hc chunk) chunks True c hc h

/-- A run with a read that finds bytes before a parser not reset is off from there on. -/
theorem off_of_not_fresh : ∀ (batches : List Batch) (sent : List Cmd) (c : Peer U), Stands sent c →
    (∀ argv ∈ sent, argv ≠ []) →
    (∀ argv ∈ sentBy batches, argv ≠ [] ∧ (encode argv).length < 2 ^ 31) →
      ¬ c.EachRead push Fresh (batches.map Batch.chunk) →
    Off (c.run push (batches.map Batch.chunk)) := by
  intro batches
  induction batches with
  | nil => intro sent c _ _ _ hf; exact absurd trivial hf
  | cons b batches ih =>
    intro sent c h hsent hcmds hf
    rw [sentBy, List.flatMap_cons] at hcmds
    by_cases hb : Fresh c b.chunk.1
    · refine ih (sent ++ b.1) _
        (stands_read h b (fun argv ha => (hcmds argv (List.mem_append_left _ ha)).2) hb) ?_
        (fun argv ha => hcmds argv (List.mem_append_right _ ha)) (fun hr => hf ⟨hb, hr⟩)
      intro argv ha
      rcases List.mem_append.mp ha with ha | ha
      · exact hsent argv ha
      · exact (hcmds argv (List.mem_append_left _ ha)).1
    · refine off_run (batches.map Batch.chunk) (c.onReadable push b.chunk) ?_
        (onReadable_atRest (stands_atRest h) b.chunk)
      rw [Fresh, not_or] at hb
      cases h with
      | idle rest _ _ _ =>
        rcases rest with hp | ⟨argv, hne, hl⟩
        · rw [hp] at hb; exact absurd rfl hb.1
        · rw [hl] at hb
          exact off_read hne hl hb.2
      | stuck argv todo hl _ _ all =>
        rw [hl] at hb
        exact off_read (hsent argv (by rw [← all]; simp)) hl hb.2

/-- Over every run of batches: while no read gives bytes to a parser not reset, the
    accepted commands are the sent ones in order, all of them when nothing is left over.
    With commands that have arguments, only such runs end so. -/
theorem backpressure (push : U → Cmd → Error × U) (id clientConn : Nat) (u : U) (batches : List Batch)
    (hsize : ∀ argv ∈ sentBy batches, (argv.formatRESP2 []).length < 2 ^ 31) :
    let first := start id clientConn u
    let last := first.run push (batches.map Batch.chunk)
    (first.EachRead push Fresh (batches.map Batch.chunk) →
      accepted last.calls <+: sentBy batches ∧ (Handled last → accepted last.calls = sentBy batches)) ∧
    ((∀ argv ∈ sentBy batches, argv ≠ []) → Handled last → accepted last.calls = sentBy batches →
      first.EachRead push Fresh (batches.map Batch.chunk)) := by
  intro first last
  have hsize' : ∀ argv ∈ sentBy batches, (encode argv).length < 2 ^ 31 := by
    intro argv ha
    have := hsize argv ha
    rwa [formatRESP2_eq, List.nil_append] at this
  have hfirst : Stands [] first := .idle (Or.inl rfl) rfl (by simp [Refused, first, start]) rfl
  constructor
  · intro hf
    have hs : Stands (sentBy batches) last := by simpa using stands_run batches [] first hfirst hsize' hf
    cases hs with
    | idle _ _ _ all => rw [all]; exact ⟨List.prefix_refl _, fun _ => rfl⟩
    | stuck argv todo _ _ refusal all => exact ⟨⟨_, all⟩, fun h => absurd refusal h.2⟩
  · intro hne hh hall
    by_contra hf
    rcases off_of_not_fresh batches [] first hfirst (by simp)
      (fun argv ha => ⟨hne argv ha, hsize' argv ha⟩) hf with
      h | ⟨argv, unread, _, hun, hl⟩
    · exact hne [] (hall ▸ h) rfl
    · have hin : last.session.parser.inputb = [] := hh.1
      rw [show last.session.parser = returned argv unread from hl] at hin
      exact hun hin

def ping : Cmd := [[80, 73, 78, 71]]

/-- The first push is refused, the others are not. -/
def refuseFirst (n : Nat) (_ : Cmd) : Error × Nat := if n = 0 then (.tryAgain, 1) else (.ok, n + 1)

/-- Two commands in one read, the first refused, then a read of no bytes: an empty
    command comes between them. -/
theorem backpressure_inserts :
    accepted ((start 1 0 0).run refuseFirst
      (([([ping, ping], []), ([], [])] : List Batch).map Batch.chunk)).calls = [ping, [], ping] ∧
    ¬ [ping, [], ping] <+: sentBy [([ping, ping], []), ([], [])] := by
  refine ⟨by decide, by decide⟩

/-- One command, refused and pushed again by a read of no bytes. -/
theorem backpressure_retry :
    (∀ argv ∈ sentBy [([ping], []), ([], [])], (argv.formatRESP2 []).length < 2 ^ 31) ∧
    accepted ((start 1 0 0).run refuseFirst
      (([([ping], []), ([], [])] : List Batch).map Batch.chunk)).calls <+:
      sentBy [([ping], []), ([], [])] :=
  ⟨by decide, ((backpressure refuseFirst 1 0 0 [([ping], []), ([], [])] (by decide)).1
    ⟨Or.inl rfl, Or.inr (by decide), trivial⟩).1⟩

end Peer

end RedisProxy.Client
