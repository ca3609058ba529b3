/-
  RedisProxy.Client.Session — one client session (session.h, session.cpp).

  `OnClientRead` runs over what the session can touch (`Peer`): its command and
  parser, its connection, and the upstream pool, of which only `PushRequest` is used
  (`push`, any function). `calls` records what was done with the command, in order. The
  loop runs on fuel, which the unread bytes bound (`rounds_next`).

  `currentCmd_` has two roles: the command refused earlier, to be pushed again, and the
  command the parser is still adding arguments to. A read that finds it not empty takes
  it for the first.

  Proved:
  - `readLoop_rule`, `onClientRead_rule`: what holds at every head of the loop, and what
    follows where it leaves, from one round.
  - `pushed_complete`: over every run, whatever the bytes, the chunks and the answers,
    only complete commands are pushed exactly when no read finds a command that is
    neither empty nor refused.
-/

import RedisProxy.Lib.Runs
import RedisProxy.Net.Connection
import RedisProxy.Wire.Progress

namespace RedisProxy.Client

open Lib.Decimal Lib.Runs Wire Net

structure Session where
  id : Nat
  /-- The connection the session was created for. -/
  clientConn : Nat
  currentCmd : Cmd
  parser : CmdParser
  deriving DecidableEq, Repr

def Session.create (id clientConn : Nat) : Session := ⟨id, clientConn, [], .init⟩

/-- What is done with `currentCmd_`. A `ParseRequest` call is recorded with the parser it
    is made on and the memory behind its input. -/
inductive Call where
  | parse (p : CmdParser) (beyond : Bytes) (e : Error)
  | push (cmd : Cmd) (e : Error)
  | reset
  deriving DecidableEq, Repr

/-- A session and what it can touch. -/
structure Peer (U : Type) where
  session : Session
  conn : Connection
  upstream : U
  calls : List Call

namespace Peer

variable {U : Type} (push : U → Cmd → Error × U)

def start (id clientConn : Nat) (u : U) : Peer U := ⟨.create id clientConn, .opened, u, []⟩

/-! ## OnClientRead -/

/-- `upstreamPool_->PushRequest( currentCmd_, this )`. -/
def pushRequest (c : Peer U) : Error × Peer U :=
  ((push c.upstream c.session.currentCmd).1,
    { c with upstream := (push c.upstream c.session.currentCmd).2,
             calls := c.calls ++ [.push c.session.currentCmd (push c.upstream c.session.currentCmd).1] })

/-- `parser_.ParseRequest( &currentCmd_ )`. -/
def parseRequest (beyond : Bytes) (c : Peer U) : Error × Peer U :=
  ((c.session.parser.parseRequest beyond c.session.currentCmd).1,
    { c with session := { c.session with
               parser := (c.session.parser.parseRequest beyond c.session.currentCmd).2.1,
               currentCmd := (c.session.parser.parseRequest beyond c.session.currentCmd).2.2 },
             calls := c.calls ++ [.parse c.session.parser beyond
               (c.session.parser.parseRequest beyond c.session.currentCmd).1] })

/-- `currentCmd_.Reset()`. -/
def resetCmd (c : Peer U) : Peer U :=
  { c with session := { c.session with currentCmd := [] }, calls := c.calls ++ [.reset] }

/-- `parser_.Reset()`. -/
def resetParser (c : Peer U) : Peer U :=
  { c with session := { c.session with parser := c.session.parser.reset } }

/-- How both pushes leave when the answer `e` is not `OK`. -/
def refused (e : Error) (c : Peer U) : Error × Peer U :=
  if e = .tryAgain then (.ok, { c with conn := c.conn.setReadable false }) else (e, c)

/-- The error is written out and the connection closed behind it. -/
def failed (e : Error) (c : Peer U) : Error × Peer U :=
  (e, { c with conn := c.conn.writeToBuffer e.string true })

def readLoop (beyond : Bytes) : Nat → Peer U → Error × Peer U
  | 0, c => (.ok, c)
  | n + 1, c =>
    if c.session.parser.inputb = [] then (.ok, c)
    else
      match c.parseRequest beyond with
      | (.ok, c) =>
        match c.pushRequest push with
        | (.ok, c) => readLoop beyond n c.resetParser.resetCmd
        | (e, c) => c.refused e
      | (.tryAgain, c) => (.ok, c)
      | (e, c) => c.failed e

/-- Rounds the loop can make: one for each byte, one that finds nothing, and one that
    consumes nothing on a parser left over from an earlier call. -/
def rounds (c : Peer U) : Nat :=
  c.session.parser.inputb.length + if c.session.parser.parseType = .none then 1 else 2

def onClientRead (beyond : Bytes) (c : Peer U) : Error × Peer U :=
  if c.session.currentCmd = [] then readLoop push beyond c.rounds c
  else
    match c.pushRequest push with
    | (.ok, c) => readLoop push beyond c.resetCmd.rounds c.resetCmd
    | (e, c) => c.refused e

/-- `OnReadable`: the bytes that `Read` got, then the handler. `chunk.2` is the memory
    behind the input. -/
def onReadable (chunk : Bytes × Bytes) (c : Peer U) : Peer U :=
  (onClientRead push chunk.2 { c with session :=
    { c.session with parser := c.session.parser.feed chunk.1 } }).2

def run (c : Peer U) (chunks : List (Bytes × Bytes)) : Peer U :=
  chunks.foldl (fun c chunk => c.onReadable push chunk) c

/-- `P` of the state before every read of the run, and what it brings. -/
def EachRead (P : Peer U → Bytes → Prop) (c : Peer U) (chunks : List (Bytes × Bytes)) : Prop :=
  Each (fun c chunk => c.onReadable push chunk) (fun c chunk => P c chunk.1) c chunks

/-! ## One round -/

variable {push} {beyond : Bytes} {c : Peer U}

/-- What one round needs to show: `I` holds at the loop's head, `Q` where it leaves. -/
structure Round (push : U → Cmd → Error × U) (beyond : Bytes) (I : Peer U → Prop)
    (Q : Error → Peer U → Prop) : Prop where
  drained : ∀ c, I c → c.session.parser.inputb = [] → Q .ok c
  waits : ∀ c, I c → c.session.parser.inputb ≠ [] → (c.parseRequest beyond).1 = .tryAgain →
    Q .ok (c.parseRequest beyond).2
  fails : ∀ c e, I c → c.session.parser.inputb ≠ [] → (c.parseRequest beyond).1 = e → e ≠ .ok →
    e ≠ .tryAgain →
    Q e ((c.parseRequest beyond).2.failed e).2
  refuses : ∀ c e, I c → c.session.parser.inputb ≠ [] → (c.parseRequest beyond).1 = .ok →
    ((c.parseRequest beyond).2.pushRequest push).1 = e → e ≠ .ok →
    Q (((c.parseRequest beyond).2.pushRequest push).2.refused e).1
      (((c.parseRequest beyond).2.pushRequest push).2.refused e).2
  accepts : ∀ c, I c → c.session.parser.inputb ≠ [] → (c.parseRequest beyond).1 = .ok →
    ((c.parseRequest beyond).2.pushRequest push).1 = .ok →
    I ((c.parseRequest beyond).2.pushRequest push).2.resetParser.resetCmd

theorem atRest_next (h : c.session.parser.AtRest) :
    ((c.parseRequest beyond).2.pushRequest push).2.resetParser.resetCmd.session.parser.AtRest :=
  (CmdParser.parseRequest_progress h beyond c.session.currentCmd).1.reset

variable (push) in
/-- A round that goes on shortens the input, or leaves a parser that will. -/
theorem rounds_next (h : c.session.parser.AtRest) (hp : (c.parseRequest beyond).1 = .ok) :
    ((c.parseRequest beyond).2.pushRequest push).2.resetParser.resetCmd.rounds < c.rounds := by
  obtain ⟨_, hle, hlt⟩ := CmdParser.parseRequest_progress h beyond c.session.currentCmd
  show (c.session.parser.parseRequest beyond c.session.currentCmd).2.1.inputb.length + 1 < c.rounds
  unfold rounds
  split
  · rename_i hn
    have := hlt hp hn
    omega
  · omega

theorem readLoop_rule {I : Peer U → Prop} {Q : Error → Peer U → Prop} (hr : Round push beyond I Q) (n : Nat) :
    ∀ c : Peer U, c.session.parser.AtRest → c.rounds ≤ n → I c →
      Q (readLoop push beyond n c).1 (readLoop push beyond n c).2 := by
  induction n with
  | zero =>
    intro c _ hn _
    unfold rounds at hn
    split at hn <;> omega
  | succ n ih =>
    intro c hc hn hI
    rw [readLoop]
    split
    · rename_i h0
      exact hr.drained c hI h0
    · rename_i h0
      split
      · rename_i c1 hp
        obtain ⟨hp1, rfl⟩ : (c.parseRequest beyond).1 = .ok ∧
          (c.parseRequest beyond).2 = c1 := by rw [hp]; exact ⟨rfl, rfl⟩
        split
        · rename_i c2 hq
          obtain ⟨hq1, rfl⟩ : ((c.parseRequest beyond).2.pushRequest push).1 = .ok ∧
              ((c.parseRequest beyond).2.pushRequest push).2 = c2 := by
            rw [hq]; exact ⟨rfl, rfl⟩
          have hlt := rounds_next push hc hp1
          exact ih _ (atRest_next hc) (by omega) (hr.accepts c hI h0 hp1 hq1)
        · rename_i e c2 hno hq
          obtain ⟨hq1, rfl⟩ : ((c.parseRequest beyond).2.pushRequest push).1 = e ∧
              ((c.parseRequest beyond).2.pushRequest push).2 = c2 := by
            rw [hq]; exact ⟨rfl, rfl⟩
          exact hr.refuses c e hI h0 hp1 hq1 hno
      · rename_i c1 hp
        obtain ⟨hp1, rfl⟩ : (c.parseRequest beyond).1 = .tryAgain ∧
          (c.parseRequest beyond).2 = c1 := by rw [hp]; exact ⟨rfl, rfl⟩
        exact hr.waits c hI h0 hp1
      · rename_i e c1 hno hno' hp
        obtain ⟨hp1, rfl⟩ : (c.parseRequest beyond).1 = e ∧
          (c.parseRequest beyond).2 = c1 := by rw [hp]; exact ⟨rfl, rfl⟩
        exact hr.fails c e hI h0 hp1 hno hno'

theorem onClientRead_rule {I : Peer U → Prop} {Q : Error → Peer U → Prop} (hr : Round push beyond I Q)
    (hc : c.session.parser.AtRest)
    (hempty : c.session.currentCmd = [] → I c)
    (hrefuse : ∀ e, c.session.currentCmd ≠ [] → (c.pushRequest push).1 = e → e ≠ .ok →
      Q ((c.pushRequest push).2.refused e).1 ((c.pushRequest push).2.refused e).2)
    (haccept : c.session.currentCmd ≠ [] → (c.pushRequest push).1 = .ok → I (c.pushRequest push).2.resetCmd) :
    Q (onClientRead push beyond c).1 (onClientRead push beyond c).2 := by
  unfold onClientRead
  split
  · rename_i h0
    exact readLoop_rule hr _ c hc (Nat.le_refl _) (hempty h0)
  · rename_i h0
    split
    · rename_i c1 hq
      obtain ⟨hq1, rfl⟩ : (c.pushRequest push).1 = .ok ∧
        (c.pushRequest push).2 = c1 := by rw [hq]; exact ⟨rfl, rfl⟩
      exact readLoop_rule hr _ _ hc (Nat.le_refl _) (haccept h0 hq1)
    · rename_i e c1 hno hq
      obtain ⟨hq1, rfl⟩ : (c.pushRequest push).1 = e ∧
        (c.pushRequest push).2 = c1 := by rw [hq]; exact ⟨rfl, rfl⟩
      exact hrefuse e h0 hq1 hno

@[simp] theorem refused_session (e : Error) (c : Peer U) : (c.refused e).2.session = c.session := by
  unfold refused; split <;> rfl

@[simp] theorem refused_calls (e : Error) (c : Peer U) : (c.refused e).2.calls = c.calls := by
  unfold refused; split <;> rfl

/-- Every read leaves the parser at rest. -/
theorem onReadable_atRest (h : c.session.parser.AtRest) (chunk : Bytes × Bytes) :
    (c.onReadable push chunk).session.parser.AtRest := by
  refine onClientRead_rule (I := fun c => c.session.parser.AtRest) (Q := fun _ c => c.session.parser.AtRest)
    ⟨fun _ h _ => h, ?_, ?_, ?_, fun _ h _ _ _ => atRest_next h⟩ (h.feed chunk.1)
      (fun _ => h.feed chunk.1) ?_ (fun _ _ => h.feed chunk.1)
  · exact fun c h _ _ => (CmdParser.parseRequest_progress h chunk.2 c.session.currentCmd).1
  · exact fun c e h _ _ _ _ => (CmdParser.parseRequest_progress h chunk.2 c.session.currentCmd).1
  · intro c e h _ _ _ _
    rw [refused_session]
    exact (CmdParser.parseRequest_progress h chunk.2 c.session.currentCmd).1
  · intro e _ _ _
    rw [refused_session]
    exact h.feed chunk.1

/-- A run, from what one read does to the invariant: `K` says whether the run has met `P`
    so far. -/
theorem run_rule {P : Peer U → Bytes → Prop} {J : Prop → Peer U → Prop}
    (hstep : ∀ K c chunk, c.session.parser.AtRest → J K c → J (K ∧ P c chunk.1) (c.onReadable push chunk)) :
    ∀ (chunks : List (Bytes × Bytes)) (K : Prop) (c : Peer U), c.session.parser.AtRest → J K c →
      J (K ∧ c.EachRead push P chunks) (c.run push chunks) := by
  intro chunks K c hc h
  let J' : Prop → Peer U → Prop := fun K c => c.session.parser.AtRest ∧ J K c
  exact (each_tracks (J := J')
    (fun K c chunk h => ⟨onReadable_atRest h.1 chunk, hstep K c chunk h.1 h.2⟩) chunks K c ⟨hc, h⟩).2

/-! ## Only complete commands -/

/-- `ParseRequest` returned `OK` on the command and nothing has changed it since. -/
def Parsed (calls : List Call) : Bool :=
  calls.foldl (fun done call => match call with
    | .parse _ _ e => decide (e = .ok)
    | .push _ _ => done
    | .reset => false) false

def OnlyComplete (calls : List Call) : Prop :=
  ∀ before cmd e after, calls = before ++ .push cmd e :: after → Parsed before = true

/-- The last thing that happened was a refusal. -/
def Refused (calls : List Call) : Prop := ∃ cmd e, e ≠ .ok ∧ calls.getLast? = some (.push cmd e)

@[simp] theorem parsed_parse (l : List Call) (p : CmdParser) (b : Bytes) (e : Error) :
    Parsed (l ++ [.parse p b e]) = decide (e = .ok) := by simp [Parsed]

@[simp] theorem parsed_push (l : List Call) (cmd : Cmd) (e : Error) :
    Parsed (l ++ [.push cmd e]) = Parsed l := by simp [Parsed]

@[simp] theorem parsed_reset (l : List Call) : Parsed (l ++ [.reset]) = false := by simp [Parsed]

@[simp] theorem refused_parse (l : List Call) (p : CmdParser) (b : Bytes) (e : Error) :
    ¬ Refused (l ++ [.parse p b e]) := by
  simp [Refused]

@[simp] theorem refused_push (l : List Call) (cmd : Cmd) (e : Error) :
    Refused (l ++ [.push cmd e]) ↔ e ≠ .ok := by
  simp [Refused]

@[simp] theorem refused_reset (l : List Call) : ¬ Refused (l ++ [.reset]) := by simp [Refused]

theorem onlyComplete_snoc (l : List Call) (x : Call) :
    OnlyComplete (l ++ [x]) ↔ OnlyComplete l ∧ ((∃ cmd e, x = .push cmd e) → Parsed l = true) := by
  constructor
  · intro h
    refine ⟨fun before cmd e after he => ?_, ?_⟩
    · exact h before cmd e (after ++ [x]) (by rw [he]; simp)
    · rintro ⟨cmd, e, rfl⟩
      exact h l cmd e [] rfl
  · intro h before cmd e after he
    rcases List.eq_nil_or_concat after with rfl | ⟨after', y, rfl⟩
    · obtain ⟨rfl, hx⟩ := List.append_inj' he rfl
      exact h.2 ⟨cmd, e, (List.cons.inj hx).1⟩
    · refine h.1 before cmd e after' ?_
      rw [List.concat_eq_append, ← List.cons_append, ← List.append_assoc] at he
      exact (List.append_inj' he rfl).1

@[simp] theorem onlyComplete_parse (l : List Call) (p : CmdParser) (b : Bytes) (e : Error) :
    OnlyComplete (l ++ [.parse p b e]) ↔ OnlyComplete l := by simp [onlyComplete_snoc]

@[simp] theorem onlyComplete_push (l : List Call) (cmd : Cmd) (e : Error) :
    OnlyComplete (l ++ [.push cmd e]) ↔ OnlyComplete l ∧ Parsed l = true := by simp [onlyComplete_snoc]

@[simp] theorem onlyComplete_reset (l : List Call) :
    OnlyComplete (l ++ [.reset]) ↔ OnlyComplete l := by simp [onlyComplete_snoc]

/-- The command a read finds: none, or one refused. -/
def Known (c : Peer U) (_ : Bytes) : Prop := c.session.currentCmd = [] ∨ Refused c.calls

/-- Where a call ends, a complete command is left exactly if it was refused. `K` says
    whether only complete commands were pushed. -/
structure Tracked (K : Prop) (c : Peer U) : Prop where
  pushed : OnlyComplete c.calls ↔ K
  left : OnlyComplete c.calls → (Parsed c.calls = true ↔ Refused c.calls)

theorem tracked_round (K : Prop) : Round push beyond (Tracked K) (fun _ => Tracked (U := U) K) where
  drained _ h _ := h
  waits c h _ he := by
    refine ⟨?_, fun _ => ?_⟩
    · simp only [parseRequest, onlyComplete_parse, h.pushed]
    · simp only [parseRequest] at he
      simp [parseRequest, he]
  fails c e h _ he hok _ := by
    simp only [parseRequest] at he
    refine ⟨?_, fun _ => ?_⟩
    · simp only [failed, parseRequest, onlyComplete_parse, h.pushed]
    · simp [failed, parseRequest, he, hok]
  refuses c e h _ he hq hok := by
    simp only [parseRequest] at he
    simp only [pushRequest] at hq
    refine ⟨?_, fun _ => ?_⟩
    · simp only [refused_calls, pushRequest, parseRequest, onlyComplete_push, onlyComplete_parse,
        parsed_parse, he, decide_true,
        and_true, h.pushed]
    · simp only [refused_calls, pushRequest, parsed_push, refused_push, hq]
      simp [parseRequest, he, hok]
  accepts c h _ he hq := by
    simp only [parseRequest] at he
    refine ⟨?_, fun _ => ?_⟩
    · simp only [resetCmd, resetParser, pushRequest, parseRequest, onlyComplete_reset,
        onlyComplete_push, onlyComplete_parse,
        parsed_parse, he, decide_true, and_true, h.pushed]
    · simp [resetCmd, resetParser]

variable (push) in
theorem tracked_read (K : Prop) (c : Peer U) (chunk : Bytes × Bytes) (hc : c.session.parser.AtRest)
    (h : Tracked K c) :
    Tracked (K ∧ Known c chunk.1) (c.onReadable push chunk) := by
  -- a command that is not known to be refused is not complete, so the push counts against it
  have hpush : ∀ e, c.session.currentCmd ≠ [] →
      (OnlyComplete (c.calls ++ [.push c.session.currentCmd e]) ↔ K ∧ Known c chunk.1) := by
    intro e h0
    rw [onlyComplete_push, Known, or_iff_right h0, ← h.pushed]
    exact and_congr_right h.left
  refine onClientRead_rule (tracked_round (K ∧ Known c chunk.1)) (hc.feed chunk.1) ?_ ?_ ?_
  · intro h0
    exact ⟨h.pushed.trans (and_iff_left (Or.inl h0)).symm, h.left⟩
  · intro e h0 he hok
    refine ⟨?_, ?_⟩
    · rw [refused_calls]; exact hpush _ h0
    · rw [refused_calls]
      intro hc
      simp only [pushRequest] at he hc ⊢
      rw [parsed_push, refused_push, he]
      exact iff_of_true ((onlyComplete_push _ _ _).mp hc).2 hok
  · intro h0 he
    refine ⟨?_, fun _ => by simp [resetCmd]⟩
    simp only [resetCmd, onlyComplete_reset]
    exact hpush _ h0

/-- Over every run: only complete commands are pushed, exactly when every read finds no
    command or one that was refused. -/
theorem pushed_complete (id clientConn : Nat) (u : U) (chunks : List (Bytes × Bytes)) :
    OnlyComplete ((start id clientConn u).run push chunks).calls ↔
      (start id clientConn u).EachRead push Known chunks := by
  have h := run_rule (P := Known) (J := Tracked) (tracked_read push) chunks True
    (start id clientConn u) CmdParser.atRest_init
    ⟨iff_of_true (fun before _ _ _ he => by cases before <;> cases he) trivial,
      fun _ => by simp [Parsed, Refused, start]⟩
  rw [h.pushed, true_and]

/-- `GET k`, cut behind its first argument. -/
def getChunks : List (Bytes × Bytes) :=
  [([42, 50, 13, 10, 36, 51, 13, 10, 71, 69, 84, 13, 10, 36], []), ([49, 13, 10, 107, 13, 10], [])]

/-- The second read takes `GET` for a refused command and pushes it without its argument. -/
theorem pushed_get :
    getChunks.flatMap (·.1) = Cmd.formatRESP2 [[71, 69, 84], [107]] [] ∧
    ¬ OnlyComplete ((start 1 0 ()).run (fun _ _ => (.ok, ())) getChunks).calls := by
  refine ⟨by decide, fun h => ?_⟩
  generalize hc : ((start 1 0 ()).run (fun _ _ => (.ok, ())) getChunks).calls = calls at h
  have hp := h (calls.take 1) [[71, 69, 84]] .ok (calls.drop 2) (by rw [← hc]; decide)
  rw [← hc] at hp
  exact absurd hp (by decide)

end Peer

end RedisProxy.Client
