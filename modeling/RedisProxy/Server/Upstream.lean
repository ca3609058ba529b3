/-
  RedisProxy.Server.Upstream — the upstream connection and its command queue
  (upstream.h, upstream.cpp).

  A reader is anything with an identity (`UpstreamReader`); what `OnServerWrite` does with
  a reply is the reader's business, so `OnServerRead` runs over the upstream and the list
  of the `OnServerWrite` calls it makes (`Relay`). The loop runs on fuel, which the queue
  bounds: every round but the last pops an entry.

  Cluster mode is refused by `Init` and is not modelled; allocations succeed.

  Proved: `pushRequest_cases` and `onServerRead_rule`, what a push and a read can do.
-/

import RedisProxy.Net.Connection
import RedisProxy.Server.Ring
import RedisProxy.Wire.Parser

namespace RedisProxy.Server

open Lib.Decimal Wire Net

/-- An entry of the queue; a null pointer in an unused slot. -/
structure ReaderPair (R : Type) where
  identity : Nat
  reader : Option R
  deriving DecidableEq, Repr

instance (R : Type) : Inhabited (ReaderPair R) := ⟨⟨0, none⟩⟩

structure Upstream (R : Type) where
  serverConn : Connection
  respBuffer : Bytes
  parser : CmdParser
  auth : Bool
  cmdQueue : Recycle (ReaderPair R)

/-- An upstream and the `OnServerWrite` calls it has made. -/
structure Relay (R : Type) where
  upstream : Upstream R
  writes : List (R × Bytes)

variable {R : Type} (identity : R → Nat)

namespace Upstream

/-- After `Init` without a password; `n` is `ConnSendBufferCount`. -/
def start (n : Nat) (h : 0 < n) : Upstream R := ⟨.opened, [], .init, true, .create n h⟩

def isAcceptable (u : Upstream R) : Bool := u.serverConn.connected && u.auth

def pushRequest (u : Upstream R) (cmd : Cmd) (reader : R) : Error × Upstream R :=
  if u.serverConn.connected = false then (.tryAgain, u)
  else
    match u.cmdQueue.push ⟨identity reader, some reader⟩ with
    | .error .full => (.tryAgain, u)
    | .error e => (e, u)
    | .ok q =>
      (.ok, { u with cmdQueue := q, serverConn := u.serverConn.writeToBuffer (cmd.formatRESP2 []) false })

/-- `UpstreamPool::PushRequest`. -/
def poolPushRequest (u : Upstream R) (cmd : Cmd) (reader : R) : Error × Upstream R :=
  if u.isAcceptable then u.pushRequest identity cmd reader else (.tryAgain, u)

/-- `OnWritable` of the connection. -/
def onWritable (u : Upstream R) (w : WriteResult) : Upstream R :=
  { u with serverConn := (u.serverConn.onWritable w).2 }

/-- A push is refused and changes nothing, or appends its entry and its bytes. -/
theorem pushRequest_cases (u : Upstream R) (cmd : Cmd) (reader : R) :
    (u.pushRequest identity cmd reader = (.tryAgain, u) ∧
      (u.serverConn.connected = false ∨ u.cmdQueue.held.length + 1 = u.cmdQueue.holder.length)) ∨
    ∃ q, u.pushRequest identity cmd reader =
        (.ok, { u with cmdQueue := q, serverConn := u.serverConn.writeToBuffer (cmd.formatRESP2 []) false }) ∧
      u.serverConn.connected = true ∧ q.held = u.cmdQueue.held ++ [⟨identity reader, some reader⟩] := by
  unfold pushRequest
  by_cases hc : u.serverConn.connected = false
  · rw [if_pos hc]; exact Or.inl ⟨rfl, Or.inl hc⟩
  · rw [if_neg hc]
    rcases u.cmdQueue.push_held ⟨identity reader, some reader⟩ with ⟨hf, he⟩ | ⟨_, q, hq, hheld, _⟩
    · rw [he]; exact Or.inl ⟨rfl, Or.inr hf⟩
    · rw [hq]; exact Or.inr ⟨q, rfl, by simpa using hc, hheld⟩

end Upstream

namespace Relay

/-- `parser_.ParseResponse( &respBuffer_ )`. -/
def parseResponse (beyond : Bytes) (s : Relay R) : Error × Relay R :=
  ((s.upstream.parser.parseResponse beyond s.upstream.respBuffer).1,
    { s with upstream := { s.upstream with
        parser := (s.upstream.parser.parseResponse beyond s.upstream.respBuffer).2.1,
        respBuffer := (s.upstream.parser.parseResponse beyond s.upstream.respBuffer).2.2 } })

/-- The `OnServerWrite` call for an entry, if its reader still has the identity it had. -/
def callFor (pair : ReaderPair R) (resp : Bytes) : List (R × Bytes) :=
  match pair.reader with
  | some reader => if identity reader = pair.identity then [(reader, resp)] else []
  | none => []

/-- The end of a round: the entry popped, its reader called, parser and buffer cleared. -/
def answer (s : Relay R) (pair : ReaderPair R) (q : Recycle (ReaderPair R)) : Relay R :=
  { upstream := { s.upstream with cmdQueue := q, parser := s.upstream.parser.reset, respBuffer := [] },
    writes := s.writes ++ callFor identity pair s.upstream.respBuffer }

def readLoop (beyond : Bytes) : Nat → Relay R → Error × Relay R
  | 0, s => (.ok, s)
  | n + 1, s =>
    if s.upstream.parser.inputb = [] then (.ok, s)
    else
      match s.parseResponse beyond with
      | (.ok, s) =>
        match s.upstream.cmdQueue.pop with
        | .ok (pair, q) => readLoop beyond n (s.answer identity pair q)
        | .error e => (e, s)
      | (.tryAgain, s) => (.ok, s)
      | (e, s) => (e, s)

def onServerRead (beyond : Bytes) (s : Relay R) : Error × Relay R :=
  readLoop identity beyond s.upstream.cmdQueue.holder.length s

/-- `OnReadable`: the bytes that `Read` got, then the handler. -/
def onReadable (chunk : Bytes × Bytes) (s : Relay R) : Relay R :=
  (onServerRead identity chunk.2
    { s with upstream := { s.upstream with parser := s.upstream.parser.feed chunk.1 } }).2

/-! ## One round -/

variable {identity} {beyond : Bytes}

/-- What one round needs to show: `I` holds at the loop's head, `Q` where it leaves. -/
structure Round (identity : R → Nat) (beyond : Bytes) (I Q : Relay R → Prop) : Prop where
  drained : ∀ s, I s → s.upstream.parser.inputb = [] → Q s
  waits : ∀ s, I s → s.upstream.parser.inputb ≠ [] → (s.parseResponse beyond).1 ≠ .ok →
    Q (s.parseResponse beyond).2
  unasked : ∀ s, I s → s.upstream.parser.inputb ≠ [] → (s.parseResponse beyond).1 = .ok →
    s.upstream.cmdQueue.held = [] →
    Q (s.parseResponse beyond).2
  answers : ∀ s pair q, I s → s.upstream.parser.inputb ≠ [] → (s.parseResponse beyond).1 = .ok →
    s.upstream.cmdQueue.held = pair :: q.held → I ((s.parseResponse beyond).2.answer identity pair q)

theorem readLoop_rule {I Q : Relay R → Prop} (hr : Round identity beyond I Q) (n : Nat) :
    ∀ s : Relay R, s.upstream.cmdQueue.held.length < n → I s → Q (readLoop identity beyond n s).2 := by
  induction n with
  | zero => intro s hn _; exact absurd hn (Nat.not_lt_zero _)
  | succ n ih =>
    intro s hn hI
    rw [readLoop]
    split
    · rename_i h0
      exact hr.drained s hI h0
    · rename_i h0
      split
      · rename_i s1 hp
        obtain ⟨hp1, rfl⟩ : (s.parseResponse beyond).1 = .ok ∧
          (s.parseResponse beyond).2 = s1 := by rw [hp]; exact ⟨rfl, rfl⟩
        rcases s.upstream.cmdQueue.pop_held with ⟨hempty, hpop⟩ | ⟨pair, q, hpop, hheld, _⟩
        · have hpop' : (s.parseResponse beyond).2.upstream.cmdQueue.pop = .error .empty := hpop
          rw [hpop']
          exact hr.unasked s hI h0 hp1 hempty
        · have hpop' : (s.parseResponse beyond).2.upstream.cmdQueue.pop = .ok (pair, q) := hpop
          rw [hpop']
          refine ih _ ?_ (hr.answers s pair q hI h0 hp1 hheld)
          rw [hheld, List.length_cons] at hn
          exact Nat.lt_of_succ_lt_succ hn
      · rename_i s1 hp
        obtain ⟨hp1, rfl⟩ : (s.parseResponse beyond).1 = .tryAgain ∧
          (s.parseResponse beyond).2 = s1 := by rw [hp]; exact ⟨rfl, rfl⟩
        exact hr.waits s hI h0 (by rw [hp1]; decide)
      · rename_i e s1 hno _ hp
        obtain ⟨hp1, rfl⟩ : (s.parseResponse beyond).1 = e ∧
          (s.parseResponse beyond).2 = s1 := by rw [hp]; exact ⟨rfl, rfl⟩
        exact hr.waits s hI h0 (by rw [hp1]; exact hno)

theorem onServerRead_rule {I Q : Relay R → Prop} (hr : Round identity beyond I Q) {s : Relay R} (h : I s) :
    Q (onServerRead identity beyond s).2 := by
  refine readLoop_rule hr _ s ?_ h
  rw [Recycle.length_held]
  exact s.upstream.cmdQueue.size_lt

end Relay

end RedisProxy.Server
