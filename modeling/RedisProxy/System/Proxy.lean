/-
  RedisProxy.System.Proxy — the clients, their sessions and the upstream (server.cpp,
  session.h, `OnServerWrite` of session.cpp, the pool and `OnClosed` of connections.cpp).

  The pool is the connections created, each there until `RemoveConnection` takes it.
  Connection and session are created together, so the k-th session is the k-th
  connection's (`session_`), and a reader is the number of its session. No session is
  ever removed: `RemoveSession` has no caller.

  `OnServerWrite` touches the client's connection only, so a read of the upstream makes
  its calls when the loop is over (`onServerRead`). Each call is recorded with whether
  the connection was in the pool (`served`). On one that is not, the code goes through a
  pointer to freed memory; there the model changes nothing.

  An event on a removed connection changes nothing either: its descriptor is closed. The
  upstream connection is not closed here (`Server.Reconnect`).
-/

import RedisProxy.Client.Session
import RedisProxy.Server.Upstream

namespace RedisProxy.System

open Lib Lib.Decimal Wire Net Client Server

/-- A call of `OnServerWrite`. -/
structure Served where
  reader : Nat
  bytes : Bytes
  /-- `clientConn_` was in the pool. -/
  live : Bool
  deriving DecidableEq, Repr

structure Proxy where
  sessions : List Session
  /-- The client connections, `none` for a removed one. -/
  pool : List (Option Connection)
  idCounter : Nat
  upstream : Upstream Nat
  served : List Served

namespace Proxy

def start (n : Nat) (h : 0 < n) : Proxy := ⟨[], [], 0, .start n h, []⟩

/-- A connection of the pool. -/
def connection (p : Proxy) (k : Nat) : Option Connection := p.pool[k]?.join

/-- What a session's `clientConn_` denotes. -/
def clientConn (p : Proxy) (reader : Nat) : Option Connection :=
  match p.sessions[reader]? with
  | some s => p.connection s.clientConn
  | none => none

/-- `Session::Identity`. -/
def identity (p : Proxy) (reader : Nat) : Nat :=
  match p.sessions[reader]? with
  | some s => s.id
  | none => 0

/-! ## What the proxy does -/

/-- `newClientConnection`, with `CreateSession`. -/
def newClientConnection (p : Proxy) : Proxy :=
  { p with
    idCounter := p.idCounter + 1
    sessions := p.sessions ++ [.create (p.idCounter + 1) p.pool.length]
    pool := p.pool ++ [some .opened] }

def removeConnection (p : Proxy) (k : Nat) : Proxy := { p with pool := p.pool.set k none }

/-- `Event::Close` on a client's connection: `OnClosed` ends with its removal. -/
def close (p : Proxy) (k : Nat) : Proxy := p.removeConnection k

def onServerWrite (p : Proxy) (reader : Nat) (bytes : Bytes) : Proxy :=
  { p with
    pool := match p.sessions[reader]?, p.clientConn reader with
      | some s, some c =>
        if c.connected then p.pool.set s.clientConn (some ((c.writeToBuffer bytes false).setReadable true))
        else p.pool
      | _, _ => p.pool
    served := p.served ++ [⟨reader, bytes, (p.clientConn reader).isSome⟩] }

/-- A read of the upstream connection. -/
def onServerRead (p : Proxy) (chunk : Bytes × Bytes) : Proxy :=
  ((⟨p.upstream, []⟩ : Relay Nat).onReadable p.identity chunk).writes.foldl
    (fun p w => p.onServerWrite w.1 w.2)
    { p with upstream := ((⟨p.upstream, []⟩ : Relay Nat).onReadable p.identity chunk).upstream }

/-- `upstreamPool_->PushRequest` with the reader of the `k`-th session. -/
def push (p : Proxy) (k : Nat) (u : Upstream Nat) (cmd : Cmd) : Error × Upstream Nat :=
  u.poolPushRequest p.identity cmd k

/-- A session with its connection and the upstream. -/
def peer (p : Proxy) (s : Session) (c : Connection) : Peer (Upstream Nat) := ⟨s, c, p.upstream, []⟩

/-- A read of a client's connection. -/
def onClientRead (p : Proxy) (k : Nat) (chunk : Bytes × Bytes) : Proxy :=
  match p.sessions[k]?, p.connection k with
  | some s, some c =>
    { p with
      sessions := p.sessions.set k ((p.peer s c).onReadable (p.push k) chunk).session
      pool := p.pool.set k (some ((p.peer s c).onReadable (p.push k) chunk).conn)
      upstream := ((p.peer s c).onReadable (p.push k) chunk).upstream }
  | _, _ => p

/-- A write event of a client's connection, which may close it. -/
def onClientWrite (p : Proxy) (k : Nat) (w : WriteResult) : Proxy :=
  match p.connection k with
  | some c =>
    match c.onWritable w with
    | (.closed, _) => p.removeConnection k
    | (_, c) => { p with pool := p.pool.set k (some c) }
  | none => p

/-! ## Runs -/

inductive Event where
  | accept
  | read (conn : Nat) (chunk beyond : Bytes)
  | write (conn : Nat) (w : WriteResult)
  /-- A read error, the end of the stream, or a hang-up. -/
  | close (conn : Nat)
  | serverRead (chunk beyond : Bytes)
  | serverWrite (w : WriteResult)

def step (p : Proxy) : Event → Proxy
  | .accept => p.newClientConnection
  | .read k chunk beyond => p.onClientRead k (chunk, beyond)
  | .write k w => p.onClientWrite k w
  | .close k => p.close k
  | .serverRead chunk beyond => p.onServerRead (chunk, beyond)
  | .serverWrite w => { p with upstream := p.upstream.onWritable w }

def run (p : Proxy) (events : List Event) : Proxy := events.foldl step p

/-- `P` of the state before every event of the run, and the event. -/
def Each (P : Proxy → Event → Prop) (p : Proxy) (events : List Event) : Prop := Runs.Each step P p events

end Proxy

end RedisProxy.System
