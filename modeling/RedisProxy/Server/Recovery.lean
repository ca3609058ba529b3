/-
  RedisProxy.Server.Recovery — a close of the upstream connection (connections.cpp,
  `OnServerClosed` of upstream.cpp), over the epoll set.

  `Close` runs everything nested: `RemoveNotify`, `close(fd)`, then `OnClosed`, which calls
  the closed handler (`OnServerClosed`, so `Reconnect`: the new descriptor, and `Attach`
  with what `events` is by then), and after it `RemoveConnection`, which deletes the
  connection; the destructor unregisters its descriptor.

  Reads and hang-ups only differ in what they do before `Close`. The socket and `connect`
  of a `Reconnect` succeed; `fd` is the descriptor it gets.

  Proved: `close_cases`, a close ends in `RemoveConnection`, and `recovers_iff`: no close is
  ever recovered from, the connection behind `serverConn_` is gone.
-/

import RedisProxy.Net.WriteList

namespace RedisProxy.Server

open Lib Wire Net Net.Event

/-- A connection of the pool. -/
structure Conn where
  event : Event
  connected : Bool
  /-- `closedEventHandler_` is set, to `OnServerClosed`. -/
  handled : Bool
  deriving DecidableEq, Repr

structure Uplink where
  poll : Poll
  /-- What `CreateConnection` made and `RemoveConnection` has not deleted. -/
  conns : Nat → Option Conn
  serverConn : Nat

namespace Uplink

def put (s : Uplink) (a : Nat) (c : Conn) (p : Poll) : Uplink :=
  { s with poll := p, conns := Function.update s.conns a (some c) }

/-- `io::Connect` where every call succeeds. -/
def connect (s : Uplink) (a : Nat) (fd : Int) : Uplink :=
  match s.conns a with
  | none => s
  | some c =>
    s.put a { c with event := { c.event with fd := fd } } ({ c.event with fd := fd }.attach s.poll).2

def reconnect (s : Uplink) (a : Nat) (fd : Int) : Uplink :=
  match s.conns a with
  | none => s
  | some c => (s.put a { c with connected := true } s.poll).connect a fd

/-- On the connection behind `serverConn_`, whichever was closed. -/
def onServerClosed (s : Uplink) (fd : Int) : Uplink := s.reconnect s.serverConn fd

/-- `RemoveConnection`: the connection is deleted, `~Event` with it. -/
def removeConnection (s : Uplink) (a : Nat) : Uplink :=
  match s.conns a with
  | none => s
  | some c =>
    { s with poll := if c.event.fd ≠ -1 then (c.event.removeNotify s.poll).2.2 else s.poll,
             conns := Function.update s.conns a none }

def onClosed (s : Uplink) (a : Nat) (fd : Int) : Uplink :=
  match s.conns a with
  | none => s
  | some c =>
    let s := s.put a { c with connected := false } s.poll
    (if c.handled then s.onServerClosed fd else s).removeConnection a

def close (s : Uplink) (a : Nat) (fd : Int) : Uplink :=
  match s.conns a with
  | none => s
  | some c => (s.put a { c with event := (c.event.close s.poll).2.1 } (c.event.close s.poll).2.2).onClosed a fd

/-! ## Runs -/

inductive Act where
  | setReadable (flag : Bool)
  | setWritable (flag : Bool)
  /-- EOF, a read error or a hang-up; the next socket is `fd`. -/
  | close (fd : Int)
  deriving DecidableEq, Repr

def step (s : Uplink) : Act → Uplink
  | .setReadable flag =>
    match s.conns s.serverConn with
    | none => s
    | some c =>
      s.put s.serverConn { c with event := (c.event.setReadable s.poll flag).2.1 } (c.event.setReadable s.poll flag).2.2
  | .setWritable flag =>
    match s.conns s.serverConn with
    | none => s
    | some c =>
      s.put s.serverConn { c with event := (c.event.setWritable s.poll flag).1 } (c.event.setWritable s.poll flag).2
  | .close fd => s.close s.serverConn fd

/-- `UpstreamPool::Init` and `Upstream::Init`: created, connected, then read. -/
def init (p : Poll) (a : Nat) (fd : Int) : Uplink :=
  (connect ⟨p, Function.update (fun _ => none) a (some ⟨.create a 0, true, true⟩), a⟩ a fd).step (.setReadable true)

/-- The connection is there, connected, and watched for `EPOLLIN`. -/
def Recovered (s : Uplink) : Prop :=
  ∃ c, s.conns s.serverConn = some c ∧ c.connected = true ∧ (s.poll.kernel c.event.fd).any (·.epollIn) = true

def isClose : Act → Bool
  | .close _ => true
  | _ => false

variable {s : Uplink} {a : Nat}

/-! ## What a close leaves -/

@[simp] theorem put_serverConn (c : Conn) (p : Poll) : (s.put a c p).serverConn = s.serverConn := rfl

@[simp] theorem put_conns (c : Conn) (p : Poll) : (s.put a c p).conns a = some c := Function.update_self _ _ _

@[simp] theorem connect_serverConn (fd : Int) : (s.connect a fd).serverConn = s.serverConn := by
  unfold connect
  split <;> rfl

@[simp] theorem onServerClosed_serverConn (fd : Int) : (s.onServerClosed fd).serverConn = s.serverConn := by
  unfold onServerClosed reconnect
  split <;> simp

@[simp] theorem removeConnection_serverConn : (s.removeConnection a).serverConn = s.serverConn := by
  unfold removeConnection
  split <;> rfl

theorem removeConnection_conns : (s.removeConnection a).conns a = none := by
  unfold removeConnection
  split
  · assumption
  · exact Function.update_self _ _ _

/-- A close ends in `RemoveConnection`. -/
theorem close_cases (fd : Int) :
    (s.conns s.serverConn = none ∧ s.close s.serverConn fd = s) ∨
      ∃ s1 : Uplink, s1.serverConn = s.serverConn ∧ s.close s.serverConn fd = s1.removeConnection s.serverConn := by
  cases h : s.conns s.serverConn with
  | none =>
    refine Or.inl ⟨rfl, ?_⟩
    unfold close
    rw [h]
  | some c =>
    unfold close onClosed
    rw [h]
    simp only [put_conns]
    refine Or.inr ⟨_, ?_, rfl⟩
    split <;> simp

/-- No close is recovered from, whatever the state. -/
theorem close_not_recovered (fd : Int) : ¬ (s.close s.serverConn fd).Recovered := by
  rintro ⟨c, hc, -⟩
  rcases s.close_cases fd with ⟨hnone, hclose⟩ | ⟨s1, hsame, hclose⟩
  · rw [hclose, hnone] at hc
    cases hc
  · rw [hclose, removeConnection_serverConn, hsame, removeConnection_conns] at hc
    cases hc

/-- Every close of a run is recovered from if and only if the run has none. -/
theorem recovers_iff (acts : List Act) :
    ∀ s : Uplink, Runs.Each step (fun s act => isClose act = true → (s.step act).Recovered) s acts ↔
      ∀ act ∈ acts, isClose act = false := by
  induction acts with
  | nil =>
    intro s
    simp [Runs.Each]
  | cons act acts ih =>
    intro s
    rw [Runs.Each, ih, List.forall_mem_cons]
    refine and_congr_left fun _ => ?_
    cases act with
    | setReadable flag => simp [isClose]
    | setWritable flag => simp [isClose]
    | close fd => simp [isClose, step, close_not_recovered]

/-- Connected, then closed by the server: `serverConn_` is left dangling. -/
theorem closed_upstream_is_gone :
    (init nothing 0 5).Recovered ∧ ¬ ((init nothing 0 5).step (.close 6)).Recovered := by
  refine ⟨⟨⟨⟨0, 5, ⟨true, false⟩, 0⟩, true, true⟩, rfl, rfl, rfl⟩, ?_⟩
  rintro ⟨c, hc, -⟩
  exact absurd hc (by simp [init, step, close, onClosed, onServerClosed, reconnect, connect, removeConnection, put])

end Uplink

end RedisProxy.Server
