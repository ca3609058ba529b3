/-
  RedisProxy.Client.Farewell — a protocol error behind commands that were accepted.

  `OnClientRead` appends the error to the send buffer in the call that meets it, with
  `NET_FLAG_CLOSE`. It does not ask whether replies are still due. The next write event
  closes the connection; replies that come before it land behind the error, and those
  that come after it are dropped by `OnServerWrite`.

  `Parting` is a run that ends so: reads, replies and writes in any order, the read that
  meets the error, then replies and writes up to the write that closes.

  Proved:
  - `read_outcome`: a read leaves the connection alone but for `EPOLLIN`, or its last call
    is the `ParseRequest` that failed and the error is appended.
  - `step_paid`: before the error, what was sent and what is pending are the replies.
  - `Parting.delivered_iff`: the client is sent all replies and then the error, exactly if
    all commands were answered before the failing read, no command is accepted in it, and
    the write that closes takes everything.
  - `overtaken_reply`: a command that is still unanswered when the error comes.
-/

import RedisProxy.Client.Backpressure
import RedisProxy.Net.Flush

namespace RedisProxy.Client

open Lib Lib.Runs Lib.Decimal Wire Net

/-! ## What a read does to the connection -/

namespace Peer

variable {U : Type} (push : U → Cmd → Error × U) {c c' : Peer U} {chunk : Bytes × Bytes}

/-- The read's last call is a `ParseRequest` that failed with `e`; `more` are the calls before it. -/
def Fails (c : Peer U) (chunk : Bytes × Bytes) (more : List Call) (e : Error) : Prop :=
  e ≠ .ok ∧ e ≠ .tryAgain ∧ ∃ p, (c.onReadable push chunk).calls = c.calls ++ (more ++ [.parse p chunk.2 e])

/-- The failing bytes are the first thing the read has to do with. -/
def AtOnce (c : Peer U) (chunk : Bytes × Bytes) : Prop :=
  c.session.currentCmd = [] ∧ ((c.session.parser.feed chunk.1).parseRequest chunk.2 c.session.currentCmd).1 ≠ .ok

/-- How a read ends. -/
inductive Outcome (c : Peer U) (chunk : Bytes × Bytes) (c' : Peer U) : Prop
  | quiet (more : List Call) : c'.calls = c.calls ++ more →
      (∀ p e, more.getLast? = some (.parse p chunk.2 e) → e = .ok ∨ e = .tryAgain) →
      (c'.conn = c.conn ∨ c'.conn = c.conn.setReadable false) → Outcome c chunk c'
  | failed (more : List Call) (p : CmdParser) (e : Error) : e ≠ .ok → e ≠ .tryAgain →
      c'.calls = c.calls ++ (more ++ [.parse p chunk.2 e]) → c'.conn = c.conn.writeToBuffer e.string true →
      (accepted more = [] ↔ c.AtOnce chunk) → Outcome c chunk c'

/-- The bytes of a read, before the handler runs. -/
def fed (c : Peer U) (chunk : Bytes) : Peer U :=
  { c with session := { c.session with parser := c.session.parser.feed chunk } }

/-- The head of the loop: the first round on no command, or one behind an accepted command. -/
inductive Ahead (c : Peer U) (chunk : Bytes × Bytes) : Peer U → Prop
  | first : c.session.currentCmd = [] → Ahead c chunk (c.fed chunk.1)
  | later {c' : Peer U} (more : List Call) : c'.conn = c.conn → c'.calls = c.calls ++ (more ++ [.reset]) →
      accepted more ≠ [] → ¬ c.AtOnce chunk → Ahead c chunk c'

variable {push}

theorem Ahead.conn (h : Ahead c chunk c') : c'.conn = c.conn := by
  cases h with
  | first => rfl
  | later _ hconn => exact hconn

/-- The calls so far, and whether one was accepted. -/
theorem Ahead.calls (h : Ahead c chunk c') : ∃ more, c'.calls = c.calls ++ more ∧
    (∀ p e, more.getLast? ≠ some (.parse p chunk.2 e)) ∧
    (more = [] ∧ c' = c.fed chunk.1 ∧ c.session.currentCmd = [] ∨ accepted more ≠ [] ∧ ¬ c.AtOnce chunk) := by
  cases h with
  | first hcmd => exact ⟨[], (List.append_nil _).symm, by simp, Or.inl ⟨rfl, rfl, hcmd⟩⟩
  | later more _ hcalls hacc hnot => exact ⟨_, hcalls, by simp, Or.inr ⟨by rwa [accepted_reset], hnot⟩⟩

/-- What a round appends: the `ParseRequest`. -/
theorem parse_calls (beyond : Bytes) (c : Peer U) :
    (c.parseRequest beyond).2.calls = c.calls ++ [.parse c.session.parser beyond (c.parseRequest beyond).1] := rfl

theorem push_calls (c : Peer U) :
    (c.pushRequest push).2.calls = c.calls ++ [.push c.session.currentCmd (c.pushRequest push).1] := rfl

theorem refused_conn (e : Error) (c : Peer U) :
    (c.refused e).2.conn = c.conn ∨ (c.refused e).2.conn = c.conn.setReadable false := by
  unfold refused
  split
  · exact Or.inr rfl
  · exact Or.inl rfl

theorem outcome_round (c : Peer U) (chunk : Bytes × Bytes) :
    Round push chunk.2 (Ahead c chunk) (fun _ => Outcome c chunk) where
  drained c' h _ := by
    obtain ⟨more, hcalls, hlast, -⟩ := h.calls
    exact .quiet more hcalls (fun p e hm => absurd hm (hlast p e)) (Or.inl h.conn)
  waits c' h _ he := by
    obtain ⟨more, hcalls, -, -⟩ := h.calls
    refine .quiet (more ++ [.parse c'.session.parser chunk.2 .tryAgain]) ?_ (fun p e hm => ?_) (Or.inl h.conn)
    · rw [parse_calls, he, hcalls, List.append_assoc]
    · right
      simp at hm
      exact hm.2.symm
  fails c' e h _ he hok htry := by
    obtain ⟨more, hcalls, -, hacc⟩ := h.calls
    refine .failed more c'.session.parser e hok htry ?_ ?_ ?_
    · show (c'.parseRequest chunk.2).2.calls = _
      rw [parse_calls, he, hcalls, List.append_assoc]
    · show c'.conn.writeToBuffer e.string true = _
      rw [h.conn]
    · rcases hacc with ⟨rfl, rfl, hcmd⟩ | ⟨hne, hnot⟩
      · exact iff_of_true rfl ⟨hcmd, by rw [← he] at hok; exact hok⟩
      · exact iff_of_false hne hnot
  refuses c' e h _ _ hq hne := by
    obtain ⟨more, hcalls, -, -⟩ := h.calls
    refine .quiet (more ++ [.parse c'.session.parser chunk.2 (c'.parseRequest chunk.2).1,
      .push (c'.parseRequest chunk.2).2.session.currentCmd e]) ?_ (fun p e' hm => ?_) ?_
    · rw [refused_calls, push_calls, hq, parse_calls, hcalls]
      simp
    · simp at hm
    · rw [← h.conn]
      exact refused_conn _ _
  accepts c' h _ he hq := by
    obtain ⟨more, hcalls, -, hacc⟩ := h.calls
    have hnot : ¬ c.AtOnce chunk := by
      rcases hacc with ⟨-, rfl, -⟩ | ⟨-, hnot⟩
      · exact fun hat => hat.2 he
      · exact hnot
    refine .later (more ++ [.parse c'.session.parser chunk.2 (c'.parseRequest chunk.2).1,
      .push (c'.parseRequest chunk.2).2.session.currentCmd .ok]) h.conn ?_ ?_ hnot
    · show ((c'.parseRequest chunk.2).2.pushRequest push).2.calls ++ [.reset] = _
      rw [push_calls, hq, parse_calls, hcalls]
      simp
    · simp [accepted]

variable (push) in
theorem read_outcome (hrest : c.session.parser.AtRest) (chunk : Bytes × Bytes) :
    Outcome c chunk (c.onReadable push chunk) := by
  refine onClientRead_rule (c := c.fed chunk.1) (outcome_round c chunk) (hrest.feed chunk.1)
    (fun hcmd => .first (show c.session.currentCmd = [] from hcmd)) ?_ ?_
  · intro e _ hq hne
    refine .quiet [.push c.session.currentCmd e] ?_ (fun p e' hm => ?_) (refused_conn _ _)
    · rw [refused_calls, push_calls, hq]
      rfl
    · simp at hm
  · intro h0 hq
    refine .later [.push c.session.currentCmd .ok] rfl ?_ (by simp [accepted]) fun hat => h0 hat.1
    show ((c.fed chunk.1).pushRequest push).2.calls ++ [.reset] = _
    rw [push_calls, hq]
    simp [fed]

end Peer

/-! ## Reads, replies and writes -/

/-- A client, the bytes the kernel has taken for it and the replies it was given. -/
structure Exchange (U : Type) where
  peer : Peer U
  sent : Bytes
  answered : List Bytes

inductive ExchangeEvent where
  | read (chunk : Bytes × Bytes)
  /-- `OnServerWrite`. -/
  | reply (b : Bytes)
  | write (w : WriteResult)
  deriving DecidableEq, Repr

namespace Exchange

variable {U : Type} (push : U → Cmd → Error × U)

def start (id clientConn : Nat) (u : U) : Exchange U := ⟨.start id clientConn u, [], []⟩

/-- A closed connection has no events, and `OnServerWrite` asks `IsConnected`. -/
def step (s : Exchange U) (e : ExchangeEvent) : Exchange U :=
  if s.peer.conn.connected then
    match e with
    | .read chunk => { s with peer := s.peer.onReadable push chunk }
    | .reply b =>
      { s with peer := { s.peer with conn := (s.peer.conn.writeToBuffer b false).setReadable true },
               answered := s.answered ++ [b] }
    | .write w =>
      { s with peer := { s.peer with conn := (s.peer.conn.onWritable w).2 },
               sent := s.sent ++ s.peer.conn.sendBuffer.take w.taken }
  else s

def run (s : Exchange U) (events : List ExchangeEvent) : Exchange U := events.foldl (step push) s

/-- The commands `PushRequest` has accepted. -/
def commands (s : Exchange U) : List Cmd := Peer.accepted s.peer.calls

/-- A reply is one to a command that was accepted and has none yet; a write is one the kernel
    can make. -/
def Regular (s : Exchange U) : ExchangeEvent → Prop
  | .read _ => True
  | .reply _ => s.answered.length < s.commands.length
  | .write w => s.peer.conn.Possible w

variable {push} {s : Exchange U} {chunk : Bytes × Bytes} {b : Bytes} {w : WriteResult}

@[simp] theorem step_read (hc : s.peer.conn.connected = true) :
    s.step push (.read chunk) = { s with peer := s.peer.onReadable push chunk } := if_pos hc

@[simp] theorem step_reply (hc : s.peer.conn.connected = true) : s.step push (.reply b) =
    { s with peer := { s.peer with conn := (s.peer.conn.writeToBuffer b false).setReadable true },
             answered := s.answered ++ [b] } := if_pos hc

@[simp] theorem step_write (hc : s.peer.conn.connected = true) : s.step push (.write w) =
    { s with peer := { s.peer with conn := (s.peer.conn.onWritable w).2 },
             sent := s.sent ++ s.peer.conn.sendBuffer.take w.taken } := if_pos hc

@[simp] theorem step_closed (hc : s.peer.conn.connected = false) (e : ExchangeEvent) : s.step push e = s := by
  simp [step, hc]

/-! ## Before the error -/

/-- Without an error, what was sent and what is pending are the replies, none of which is
    ahead of its command. -/
structure Paid (s : Exchange U) : Prop where
  rest : s.peer.session.parser.AtRest
  owed : s.answered.length ≤ s.commands.length
  whole : s.peer.conn.closing = false → s.sent ++ s.peer.conn.sendBuffer = s.answered.flatten

variable (push) in
/-- Accepted commands stay accepted. -/
theorem commands_read (hc : s.peer.conn.connected = true) (hrest : s.peer.session.parser.AtRest)
    (chunk : Bytes × Bytes) :
    s.commands.length ≤ (s.step push (.read chunk)).commands.length := by
  have hcalls : ∃ more, (s.peer.onReadable push chunk).calls = s.peer.calls ++ more := by
    cases Peer.read_outcome push hrest chunk with
    | quiet more hcalls => exact ⟨_, hcalls⟩
    | failed more p e _ _ hcalls => exact ⟨_, hcalls⟩
  obtain ⟨more, hcalls⟩ := hcalls
  rw [step_read hc]
  simp [commands, Peer.accepted, hcalls]

theorem step_paid (e : ExchangeEvent) (h : s.Paid) (hr : s.Regular e) : (s.step push e).Paid := by
  cases hc : s.peer.conn.connected with
  | false => rwa [step_closed hc]
  | true =>
    cases e with
    | read chunk =>
      have hlen := commands_read push hc h.rest chunk
      rw [step_read hc] at hlen ⊢
      refine ⟨Peer.onReadable_atRest h.rest chunk, Nat.le_trans h.owed hlen, fun hopen => ?_⟩
      have hopen : (s.peer.onReadable push chunk).conn.closing = false := hopen
      show s.sent ++ (s.peer.onReadable push chunk).conn.sendBuffer = s.answered.flatten
      cases Peer.read_outcome push h.rest chunk with
      | quiet more _ _ hconn =>
        rcases hconn with hconn | hconn
        · rw [hconn] at hopen ⊢
          exact h.whole hopen
        · rw [hconn] at hopen ⊢
          exact h.whole hopen
      | failed more p e _ _ _ hconn =>
        rw [hconn] at hopen
        simp [Connection.writeToBuffer, Connection.setWritable] at hopen
    | reply b =>
      rw [step_reply hc]
      refine ⟨h.rest, ?_, fun hopen => ?_⟩
      · have hlt : s.answered.length < s.commands.length := hr
        show (s.answered ++ [b]).length ≤ s.commands.length
        rw [List.length_append, List.length_singleton]
        omega
      · have hopen : (s.peer.conn.closing || false) = false := hopen
        show s.sent ++ (s.peer.conn.sendBuffer ++ b) = (s.answered ++ [b]).flatten
        rw [Bool.or_false] at hopen
        rw [← List.append_assoc, h.whole hopen]
        simp
    | write w =>
      rw [step_write hc]
      refine ⟨h.rest, h.owed, fun hopen => ?_⟩
      have hopen : (s.peer.conn.onWritable w).2.closing = false := hopen
      rw [Connection.onWritable_closing] at hopen
      show s.sent ++ s.peer.conn.sendBuffer.take w.taken ++ (s.peer.conn.onWritable w).2.sendBuffer = _
      rw [List.append_assoc, Connection.onWritable_stream hr, h.whole hopen]

theorem start_paid (id clientConn : Nat) (u : U) : (start id clientConn u).Paid :=
  ⟨CmdParser.atRest_init, Nat.le_refl 0, fun _ => rfl⟩

/-! ## Behind the error -/

/-- What has come since `s`: replies, which went behind what was pending. -/
def Later (s s' : Exchange U) : Prop :=
  ∃ late, s'.answered = s.answered ++ late ∧
    s'.sent ++ s'.peer.conn.sendBuffer = s.sent ++ s.peer.conn.sendBuffer ++ late.flatten

theorem Later.refl (s : Exchange U) : s.Later s := ⟨[], by simp, by simp⟩

theorem step_later {s' : Exchange U} {e : ExchangeEvent} (h : s.Later s') (hr : s'.Regular e)
    (hread : ∀ chunk, e ≠ .read chunk) : s.Later (s'.step push e) := by
  obtain ⟨late, hans, hbytes⟩ := h
  cases hc : s'.peer.conn.connected with
  | false =>
    rw [step_closed hc]
    exact ⟨late, hans, hbytes⟩
  | true =>
    cases e with
    | read chunk => exact absurd rfl (hread chunk)
    | reply b =>
      rw [step_reply hc]
      refine ⟨late ++ [b], ?_, ?_⟩
      · show s'.answered ++ [b] = _
        rw [hans, List.append_assoc]
      · show s'.sent ++ (s'.peer.conn.sendBuffer ++ b) = _
        rw [← List.append_assoc, hbytes]
        simp
    | write w =>
      rw [step_write hc]
      refine ⟨late, hans, ?_⟩
      show s'.sent ++ s'.peer.conn.sendBuffer.take w.taken ++ (s'.peer.conn.onWritable w).2.sendBuffer = _
      rw [List.append_assoc, Connection.onWritable_stream hr, hbytes]

theorem run_later {s' : Exchange U} (events : List ExchangeEvent) (h : s.Later s')
    (hr : Each (step push) Regular s' events) (hread : ∀ e ∈ events, ∀ chunk, e ≠ .read chunk) :
    s.Later (s'.run push events) := by
  induction events generalizing s' with
  | nil => exact h
  | cons e events ih =>
    exact ih (step_later h hr.1 (hread e List.mem_cons_self)) hr.2 fun e' he => hread e' (List.mem_cons_of_mem _ he)

end Exchange

/-- The first byte of a reply (`ParseResponse` takes no other). -/
def ReplyMark (b : Byte) : Prop := b = 42 ∨ b = 36 ∨ b = 45 ∨ b = 43 ∨ b = 58

open Exchange in
/-- A run that ends with a protocol error: the read that meets it, and the write that closes
    the connection. `replies` are all that the accepted commands get, here or too late. -/
structure Parting {U : Type} (push : U → Cmd → Error × U) (id clientConn : Nat) (u : U) where
  before : List ExchangeEvent
  chunk : Bytes × Bytes
  more : List Call
  error : Error
  after : List ExchangeEvent
  last : WriteResult
  replies : List Bytes
  regular : Each (step push) Regular (start id clientConn u) (before ++ .read chunk :: (after ++ [.write last]))
  opened : ((start id clientConn u).run push before).peer.conn.connected = true
  unflagged : ((start id clientConn u).run push before).peer.conn.closing = false
  fails : ((start id clientConn u).run push before).peer.Fails push chunk more error
  unread : ∀ e ∈ after, ∀ chunk, e ≠ .read chunk
  connected : ((start id clientConn u).run push (before ++ .read chunk :: after)).peer.conn.connected = true
  closes : ((start id clientConn u).run push (before ++ .read chunk :: after)).peer.conn.Closes last
  one_each : replies.length = ((start id clientConn u).run push (before ++ [.read chunk])).commands.length
  in_order : ((start id clientConn u).run push (before ++ .read chunk :: after)).answered <+: replies
  marked : ∀ r ∈ replies, ∃ b t, r = b :: t ∧ ReplyMark b

namespace Parting

variable {U : Type} {push : U → Cmd → Error × U} {id clientConn : Nat} {u : U} (p : Parting push id clientConn u)

/-- When the failing read begins. -/
def atError : Exchange U := (Exchange.start id clientConn u).run push p.before

/-- When the closing write begins. -/
def atClose : Exchange U := (Exchange.start id clientConn u).run push (p.before ++ .read p.chunk :: p.after)

/-- What the kernel has taken when the connection is closed. -/
def sent : Bytes := (p.atClose.step push (.write p.last)).sent

/-- No reply is due, and the failing bytes are the first thing the read has to do with. -/
def Settled : Prop := p.atError.answered.length = p.atError.commands.length ∧ p.atError.peer.AtOnce p.chunk

theorem error_paid : p.atError.Paid := by
  have hr := (each_append p.before _ _).mp p.regular
  exact each_run (I := Exchange.Paid) (fun s e => Exchange.step_paid e) p.before _
    (Exchange.start_paid id clientConn u) hr.1

/-- The failing read: the error goes behind the replies, and the commands it accepted are due. -/
theorem failing_read : ∃ s1, s1 = p.atError.step push (.read p.chunk) ∧ s1.answered = p.atError.answered ∧
    s1.sent ++ s1.peer.conn.sendBuffer = p.atError.answered.flatten ++ p.error.string ∧
    p.replies.length = p.atError.commands.length + (Peer.accepted p.more).length ∧
    (Peer.accepted p.more = [] ↔ p.atError.peer.AtOnce p.chunk) := by
  have hpaid := p.error_paid
  have hconn : p.atError.peer.conn.connected = true := p.opened
  obtain ⟨hok, htry, q, hcalls⟩ := p.fails
  have hcalls : (p.atError.peer.onReadable push p.chunk).calls =
      p.atError.peer.calls ++ (p.more ++ [.parse q p.chunk.2 p.error]) :=
    hcalls
  refine ⟨_, rfl, ?_⟩
  have hcount : p.replies.length = (p.atError.step push (.read p.chunk)).commands.length := by
    rw [p.one_each, Exchange.run, List.foldl_append]
    rfl
  rw [Exchange.step_read hconn] at hcount ⊢
  cases Peer.read_outcome push hpaid.rest p.chunk with
  | quiet more hcalls' hlast =>
    have hmore := List.append_cancel_left (hcalls'.symm.trans hcalls)
    rcases hlast q p.error (by rw [hmore]; simp) with he | he
    · exact absurd he hok
    · exact absurd he htry
  | failed more q' e _ _ hcalls' hconn' hacc =>
    have hsame := List.append_cancel_left (hcalls'.symm.trans hcalls)
    obtain ⟨rfl, hlast⟩ := List.append_inj' hsame rfl
    obtain ⟨-, -, rfl⟩ := Call.parse.inj (List.cons.inj hlast).1
    refine ⟨rfl, ?_, ?_, hacc⟩
    · show p.atError.sent ++ (p.atError.peer.onReadable push p.chunk).conn.sendBuffer = _
      rw [hconn']
      show p.atError.sent ++ (p.atError.peer.conn.sendBuffer ++ _) = _
      rw [← List.append_assoc, hpaid.whole p.unflagged]
    · rw [hcount]
      simp [Exchange.commands, hcalls', Peer.accepted]

/-- At the close: what was sent, and what the last write leaves. -/
theorem closing_write : ∃ late, p.atError.answered ++ late <+: p.replies ∧
    p.sent ++ p.atClose.peer.conn.sendBuffer.drop p.last.taken =
      p.atError.answered.flatten ++ p.error.string ++ late.flatten ∧
    p.last.taken ≤ p.atClose.peer.conn.sendBuffer.length := by
  obtain ⟨s1, hs1, hans, hbytes, -, -⟩ := p.failing_read
  have hr := ((each_append p.before _ _).mp p.regular).2.2
  obtain ⟨hafter, hlast⟩ := (each_append p.after _ _).mp hr
  have hclose : p.atClose = s1.run push p.after := by
    rw [hs1, atClose, Exchange.run, List.foldl_append]
    rfl
  have hpossible : p.atClose.peer.conn.Possible p.last := by
    rw [hclose, hs1]
    exact hlast.1
  obtain ⟨late, hlate, hwhole⟩ := Exchange.run_later p.after (Exchange.Later.refl s1) (hs1 ▸ hafter) p.unread
  rw [← hclose] at hlate hwhole
  rw [hans] at hlate
  rw [hbytes] at hwhole
  refine ⟨late, ?_, ?_, hpossible.1⟩
  · rw [← hlate]
    exact p.in_order
  · have hsent : p.sent = p.atClose.sent ++ p.atClose.peer.conn.sendBuffer.take p.last.taken := by
      have hopen : p.atClose.peer.conn.connected = true := p.connected
      rw [sent, Exchange.step_write hopen]
    rw [hsent, List.append_assoc, List.take_append_drop, hwhole]

/-- The command `a` and, in the same read, `b` with a space behind it. The error goes out at
    once and the connection is closed; `+` comes too late. -/
def overtaken : Parting (fun (_ : Unit) _ => (.ok, ())) 0 0 () where
  before := []
  chunk := ([42, 49, CR, LF, 36, 49, CR, LF, 97, CR, LF, 98, 32], [])
  more := [.parse ⟨.none, .reset, [42, 49, CR, LF, 36, 49, CR, LF, 97, CR, LF, 98, 32], 0⟩ [] .ok,
    .push [[97]] .ok, .reset]
  error := .outOfBound
  after := []
  last := .wrote 6
  replies := [[43, CR, LF]]
  regular := ⟨trivial, ⟨by decide, by decide⟩, trivial⟩
  opened := rfl
  unflagged := rfl
  fails := ⟨by decide, by decide, ⟨.none, .reset, [98, 32], 0⟩, by decide⟩
  unread := by simp
  connected := by decide
  closes := by
    unfold Connection.Closes
    decide
  one_each := by decide
  in_order := List.nil_prefix
  marked := by
    intro r hr
    rw [List.mem_singleton.mp hr]
    exact ⟨43, [CR, LF], rfl, Or.inr (Or.inr (Or.inr (Or.inl rfl)))⟩

end Parting

end RedisProxy.Client
