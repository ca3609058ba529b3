/-
  RedisProxy.System.Network — the proxy between its clients and the server.

  The proxy of `System.Proxy`, and the bytes on their way to and from it: each client's
  socket, the upstream socket in both directions, and a server, any function of its state
  and the command (`Serve`). A read takes any part of what is there; a write leaves with
  any outcome. The server takes a command when it is all there. The commands the proxy has
  accepted are kept in `order`, with their session; nothing reads them.

  A read of the upstream takes no more than its input has room for (`Server.Inflow`), and
  one without room switches the connection off. A client's input has room as long as none
  of its commands is refused (`Client.Intake`), and how much of it is left open here.

  `Calm` is what the steps of a run must meet for the proxy to go unnoticed: a read ends at
  a `Wire.Cut` and finds room in the ring for the commands it completes, a client is
  removed only with no command in the queue, a write takes no more than there is, and fewer
  than 2^31 bytes of replies are unread. A run with one other step can go wrong, each in a
  way of its own (`Client.Session`, `Wire.Incomplete`, `Client.Backpressure`,
  `System.Lifetime`, `Server.Routing`).

  Proved: what each event does to the proxy.
-/

import RedisProxy.Client.Forward
import RedisProxy.Server.Inflow
import RedisProxy.System.Direct
import RedisProxy.System.Lifetime

namespace RedisProxy.System

open Lib Lib.Decimal Lib.Pieces Lib.Shares Wire Net Client Server

/-- The commands that a read of the `k`-th connection gets accepted. -/
def Proxy.forwarded (p : Proxy) (k : Nat) (chunk : Bytes × Bytes) : List Cmd :=
  match p.sessions[k]?, p.connection k with
  | some s, some c => Peer.accepted ((p.peer s c).onReadable (p.push k) chunk).calls
  | _, _ => []

/-- A client, at the other end of its socket. -/
structure Remote where
  sent : List Cmd
  /-- In the socket, not read by the proxy. -/
  outgoing : Bytes
  /-- What `write` has taken of the connection's output. -/
  received : Bytes
  deriving DecidableEq, Repr

structure Network (σ : Type) where
  proxy : Proxy
  clients : List Remote
  /-- The accepted commands, with their session. -/
  order : List (Cmd × Nat)
  /-- Written to the upstream socket, not read by the server. -/
  toServer : Bytes
  server : σ
  replies : List Reply
  /-- Written by the server, not read by the proxy. -/
  toProxy : Bytes
  /-- The room for it. -/
  inflow : Inflow

namespace Network

variable {σ : Type}

/-- `initSize` and `minSize` are the upstream's `ReadBufferInitSize` and `ReadBufferMinSize`. -/
def start (n : Nat) (h : 0 < n) (s : σ) (initSize minSize : Nat) : Network σ :=
  ⟨.start n h, [], [], [], s, [], [], .start initSize minSize⟩

inductive Event where
  | connect
  | send (k : Nat) (cmd : Cmd)
  | read (k m : Nat) (beyond : Bytes)
  | write (k : Nat) (w : WriteResult)
  | leave (k : Nat)
  | serverWrite (w : WriteResult)
  | execute (cmd : Cmd)
  | serverRead (m : Nat) (beyond : Bytes)

/-- The first `m` bytes in the socket of the `k`-th client. -/
def incoming (n : Network σ) (k m : Nat) : Bytes := ((n.clients[k]?.map (·.outgoing)).getD []).take m

/-- The first `m` bytes in the upstream socket, if there is room for so many. -/
def arriving (n : Network σ) (m : Nat) : Bytes := n.toProxy.take (min m n.inflow.free)

/-- The output that the `k`-th connection has not written. -/
def pending (n : Network σ) (k : Nat) : Bytes := ((n.proxy.connection k).map (·.sendBuffer)).getD []

def step (serve : Serve σ) (n : Network σ) : Event → Network σ
  | .connect => { n with proxy := n.proxy.step .accept, clients := n.clients ++ [⟨[], [], []⟩] }
  | .send k cmd => { n with
      clients := n.clients.modify k fun c =>
        { c with sent := c.sent ++ [cmd], outgoing := c.outgoing ++ cmd.formatRESP2 [] } }
  | .read k m beyond => { n with
      proxy := n.proxy.step (.read k (n.incoming k m) beyond)
      order := n.order ++ (n.proxy.forwarded k (n.incoming k m, beyond)).map fun cmd => (cmd, k)
      clients := n.clients.modify k fun c => { c with outgoing := c.outgoing.drop m } }
  | .write k w => { n with
      proxy := n.proxy.step (.write k w)
      clients := n.clients.modify k fun c => { c with received := c.received ++ (n.pending k).take w.taken } }
  | .leave k => { n with proxy := n.proxy.step (.close k) }
  | .serverWrite w => { n with
      proxy := n.proxy.step (.serverWrite w)
      toServer := n.toServer ++ n.proxy.upstream.serverConn.sendBuffer.take w.taken }
  | .execute cmd =>
    if cmd.formatRESP2 [] <+: n.toServer then { n with
      toServer := n.toServer.drop (cmd.formatRESP2 []).length
      server := (serve n.server cmd).2
      replies := n.replies ++ [(serve n.server cmd).1]
      toProxy := n.toProxy ++ (serve n.server cmd).1.encode }
    else n
  | .serverRead m beyond => { n with
      proxy := n.proxy.step (.serverRead (n.arriving m) beyond)
      toProxy := n.toProxy.drop (n.arriving m).length
      inflow := n.inflow.onReadable n.proxy.identity n.proxy.upstream (n.arriving m, beyond) }

def run (serve : Serve σ) (n : Network σ) (events : List Event) : Network σ := events.foldl (step serve) n

/-- A command that a client may send: it has a name, and fewer than 2^31 bytes. -/
def Sendable (cmd : Cmd) : Prop := cmd ≠ [] ∧ (cmd.formatRESP2 []).length < 2 ^ 31

/-- The read completes `new` and ends at a cut; the ring has room for them. -/
structure Clean (n : Network σ) (k m : Nat) (new rest : List Cmd) (q : Bytes) : Prop where
  client : ∃ c, n.clients[k]? = some c ∧ c.sent = share k n.order ++ (new ++ rest) ∧
    rest.flatMap (·.formatRESP2 []) = q ++ c.outgoing.drop m
  live : n.proxy.Live k
  cut : Cut rest q
  room : n.proxy.upstream.cmdQueue.held.length + new.length < n.proxy.upstream.cmdQueue.holder.length

def Calm (n : Network σ) : Event → Prop
  | .connect => True
  | .send _ cmd => Sendable cmd
  | .read k m _ => ∃ new rest q, n.Clean k m new rest q
  | .write k w => ∃ c, n.proxy.connection k = some c ∧ c.Possible w
  | .leave k => ¬ n.proxy.Waits k
  | .serverWrite w => n.proxy.upstream.serverConn.Possible w
  | .execute _ => True
  | .serverRead m _ => n.proxy.upstream.parser.inputb.length + (n.arriving m).length < 2 ^ 31

def Each (serve : Serve σ) (P : Network σ → Event → Prop) (n : Network σ) (events : List Event) : Prop :=
  Runs.Each (step serve) P n events

/-- A read takes the beginning. -/
theorem arriving_drop (n : Network σ) (m : Nat) : n.arriving m ++ n.toProxy.drop (n.arriving m).length = n.toProxy :=
  List.prefix_iff_eq_append.mp (List.take_prefix _ _)

theorem arriving_le (n : Network σ) (m : Nat) : (n.arriving m).length ≤ n.inflow.free :=
  (List.length_take_le _ _).trans (Nat.min_le_right _ _)

end Network

/-! ## What the events do to the proxy -/

namespace Proxy

variable {p : Proxy} {k : Nat} {s : Session} {c : Connection}

theorem inv_step (h : Inv p) (e : Event) (he : Settled p e) : Inv (p.step e) := inv_run [e] p h ⟨he, trivial⟩

/-- The `OnServerWrite` calls so far. -/
def calls (p : Proxy) : List (Nat × Bytes) := p.served.map fun c => (c.reader, c.bytes)

theorem session_of_live (h : Inv p) (hk : p.Live k) : ∃ s, p.sessions[k]? = some s ∧ s.clientConn = k := by
  have hlt : k < p.sessions.length := by rw [h.paired]; exact live_lt hk
  exact ⟨_, List.getElem?_eq_getElem hlt, (h.own k _ (List.getElem?_eq_getElem hlt)).1⟩

theorem identity_congr {q : Proxy} {j : Nat} (h : q.sessions[j]? = p.sessions[j]?) : q.identity j = p.identity j := by
  unfold identity
  rw [h]

/-- A session keeps its id. -/
theorem identity_set {s' : Session} (hs : p.sessions[k]? = some s) (hid : s'.id = s.id) (q : Proxy)
    (hq : q.sessions = p.sessions.set k s') : q.identity = p.identity := by
  funext j
  by_cases hkj : k = j
  · subst hkj
    have hset : q.sessions[k]? = some s' := by
      rw [hq, List.getElem?_set_self (List.getElem?_eq_some_iff.mp hs).1]
    unfold identity
    rw [hset, hs]
    exact hid
  · exact identity_congr (by rw [hq, List.getElem?_set_ne hkj])

/-- A read whose commands are all accepted. -/
structure Fed (p : Proxy) (k : Nat) (new rest : List Cmd) (q : Bytes) (p' : Proxy) : Prop where
  session : ∃ s P, p.sessions[k]? = some s ∧ Sits rest q P ∧ p'.sessions = p.sessions.set k { s with parser := P }
  pool : p'.pool = p.pool
  upstream : Upstream.Took p.identity k p.upstream new p'.upstream
  served : p'.served = p.served

theorem fed_read {chunk beyond pre q : Bytes} {new rest : List Cmd} (hs : p.sessions[k]? = some s)
    (hc : p.connection k = some c) (hcmd : s.currentCmd = []) (hparser : s.parser.AtRest)
    (hsits : Sits (new ++ rest) pre s.parser) (hcut : Cut rest q)
    (hbytes : pre ++ chunk = new.flatMap encode ++ q) (hsize : ∀ argv ∈ new ++ rest, (encode argv).length < 2 ^ 31)
    (hopen : p.upstream.isAcceptable = true)
    (hroom : p.upstream.cmdQueue.held.length + new.length < p.upstream.cmdQueue.holder.length) :
    Fed p k new rest q (p.onClientRead k (chunk, beyond)) ∧ p.forwarded k (chunk, beyond) = new := by
  obtain ⟨hacc, htook⟩ := Upstream.took_pushes p.identity k new p.upstream hopen hroom
  have hf : Peer.Forwarded (p.push k) (p.peer s c) new rest q ((p.peer s c).onReadable (p.push k) (chunk, beyond)) :=
    Peer.onReadable_forwards hcmd hsits hcut hbytes hsize hacc hparser
  have hpool : p.pool.set k (some c) = p.pool := by
    obtain ⟨hlt, hget⟩ := List.getElem?_eq_some_iff.mp (connection_eq.mp hc)
    rw [← hget, List.set_getElem_self]
  unfold onClientRead forwarded
  rw [hs, hc]
  refine ⟨⟨⟨s, _, hs, hf.sits, ?_⟩, ?_, ?_, rfl⟩, hf.calls⟩
  · show p.sessions.set k _ = _
    rw [hf.session]
    rfl
  · show p.pool.set k (some _) = _
    rw [hf.conn]
    exact hpool
  · show Upstream.Took p.identity k p.upstream new ((p.peer s c).onReadable (p.push k) (chunk, beyond)).upstream
    rw [hf.upstream]
    exact htook

theorem onWritable_not_closed (hclosing : c.closing = false) (w : WriteResult) : (c.onWritable w).1 ≠ .closed := by
  unfold Connection.onWritable
  by_cases h0 : c.sendBuffer = []
  · rw [if_pos h0]
    exact Error.noConfusion
  · rw [if_neg h0]
    cases w with
    | again => simp [Connection.write, hclosing]
    | fails errno => simp [Connection.write]
    | wrote n =>
      by_cases hn : n = 0
      · simp [Connection.write, hn, hclosing]
      · by_cases hpart : n < c.sendBuffer.length
        · simp [Connection.write, hn, hpart, hclosing]
        · simp [Connection.write, hn, hpart, hclosing]

/-- A write event of a connection that is not to be closed. -/
theorem onClientWrite_open (hc : p.connection k = some c) (hclosing : c.closing = false) (w : WriteResult) :
    p.onClientWrite k w = { p with pool := p.pool.set k (some (c.onWritable w).2) } :=
  write_stays hc (onWritable_not_closed hclosing w)

theorem connection_set {v : Connection} (hk : p.Live k) (j : Nat) :
    connection { p with pool := p.pool.set k (some v) } j = if k = j then some v else p.connection j := by
  show (p.pool.set k (some v))[j]?.join = _
  rw [List.getElem?_set]
  split
  · rename_i e
    subst e
    rw [if_pos (live_lt hk)]
    rfl
  · rfl

theorem connection_accept {j : Nat} (h : (p.step .accept).connection j = some c) :
    p.connection j = some c ∨ j = p.pool.length ∧ c = .opened := by
  have h : (p.pool ++ [some .opened])[j]? = some (some c) := connection_eq.mp h
  by_cases hj : j < p.pool.length
  · rw [List.getElem?_append_left hj] at h
    exact Or.inl (connection_eq.mpr h)
  · rw [List.getElem?_append_right (Nat.le_of_not_lt hj), List.getElem?_singleton] at h
    split at h
    · exact Or.inr ⟨by omega, (Option.some.inj (Option.some.inj h)).symm⟩
    · cases h

theorem connection_close {j : Nat} (h : (p.step (.close k)).connection j = some c) : p.connection j = some c := by
  have h : (p.pool.set k none)[j]? = some (some c) := connection_eq.mp h
  by_cases hkj : k = j
  · subst hkj
    rw [List.getElem?_set] at h
    split at h
    · split at h <;> cases h
    · exact connection_eq.mpr h
  · rw [List.getElem?_set_ne hkj] at h
    exact connection_eq.mpr h

/-! ### Replies -/

/-- What a connection becomes as the replies `bs` are written to it. -/
def deliver (c : Connection) (bs : List Bytes) : Connection :=
  bs.foldl (fun c b => (c.writeToBuffer b false).setReadable true) c

@[simp] theorem deliver_connected (bs : List Bytes) : ∀ c : Connection, (deliver c bs).connected = c.connected := by
  induction bs with
  | nil => intro c; rfl
  | cons b bs ih => intro c; exact ih _

theorem deliver_closing (bs : List Bytes) : ∀ c : Connection, (deliver c bs).closing = c.closing := by
  induction bs with
  | nil => intro c; rfl
  | cons b bs ih =>
    intro c
    have hb : ((c.writeToBuffer b false).setReadable true).closing = c.closing := Bool.or_false _
    exact (ih _).trans hb

theorem deliver_sendBuffer (bs : List Bytes) : ∀ c : Connection,
    (deliver c bs).sendBuffer = c.sendBuffer ++ bs.flatten := by
  induction bs with
  | nil => intro c; exact (List.append_nil _).symm
  | cons b bs ih =>
    intro c
    refine (ih _).trans ?_
    show c.sendBuffer ++ b ++ bs.flatten = _
    rw [List.append_assoc, List.flatten_cons]

/-- Replies handed to the sessions: each goes to its connection, behind the others. -/
structure Handed (p : Proxy) (calls : List (Nat × Bytes)) (p' : Proxy) : Prop where
  sessions : p'.sessions = p.sessions
  upstream : p'.upstream = p.upstream
  length : p'.pool.length = p.pool.length
  served : p'.calls = p.calls ++ calls
  connection : ∀ j, p'.connection j = (p.connection j).map fun c => deliver c (share j (calls.map Prod.swap))

theorem handed_one (h : Inv p) (hopen : ∀ j c, p.connection j = some c → c.connected = true) (hk : p.Live k)
    (bytes : Bytes) : Handed p [(k, bytes)] (p.onServerWrite k bytes) := by
  obtain ⟨c, hc⟩ := hk
  obtain ⟨s, hs, hown⟩ := session_of_live h ⟨c, hc⟩
  have hconn : p.clientConn k = some c := by rw [clientConn, hs]; dsimp only; rw [hown]; exact hc
  have hpool : (p.onServerWrite k bytes).pool =
      p.pool.set k (some ((c.writeToBuffer bytes false).setReadable true)) := by
    unfold onServerWrite
    rw [hs, hconn]
    dsimp only
    rw [if_pos (hopen k c hc), hown]
  refine ⟨rfl, rfl, by rw [hpool, List.length_set], by simp [calls, onServerWrite], fun j => ?_⟩
  have hj := connection_set (v := (c.writeToBuffer bytes false).setReadable true) ⟨c, hc⟩ j
  show (p.onServerWrite k bytes).pool[j]?.join = _
  rw [hpool]
  refine hj.trans ?_
  by_cases hkj : k = j
  · subst hkj
    rw [if_pos rfl, hc]
    show some _ = some (deliver c (share k [(bytes, k)]))
    rw [share_cons_own, share_nil]
    rfl
  · rw [if_neg hkj]
    show _ = (p.connection j).map fun c => deliver c (share j [(bytes, k)])
    rw [share_cons_other hkj, share_nil]
    exact Option.map_id'.symm

theorem handed_calls (calls : List (Nat × Bytes)) : ∀ p : Proxy, Inv p →
    (∀ j c, p.connection j = some c → c.connected = true) → (∀ w ∈ calls, p.Live w.1) →
      Handed p calls (calls.foldl (fun p w => p.onServerWrite w.1 w.2) p) := by
  induction calls with
  | nil =>
    intro p _ _ _
    exact ⟨rfl, rfl, rfl, (List.append_nil _).symm, fun j => Option.map_id'.symm⟩
  | cons w calls ih =>
    intro p h hopen hw
    have hone := handed_one h hopen (hw w List.mem_cons_self) w.2
    obtain ⟨hinv, hlive⟩ := inv_serve h (hw w List.mem_cons_self) w.2
    have hopen' : ∀ j c, (p.onServerWrite w.1 w.2).connection j = some c → c.connected = true := by
      intro j c hc
      rw [hone.connection] at hc
      obtain ⟨d, hd, rfl⟩ := Option.map_eq_some_iff.mp hc
      rw [deliver_connected]
      exact hopen j d hd
    have hrest := ih _ hinv hopen' fun w' hw' => hlive _ (hw w' (List.mem_cons_of_mem _ hw'))
    refine ⟨hrest.sessions.trans hone.sessions, hrest.upstream.trans hone.upstream, hrest.length.trans hone.length,
      ?_, fun j => ?_⟩
    · rw [List.foldl_cons, hrest.served, hone.served, List.append_assoc]
      rfl
    · rw [List.foldl_cons, hrest.connection, hone.connection, Option.map_map]
      congr 1
      funext c
      show deliver (deliver c _) _ = _
      rw [deliver, deliver, deliver, ← List.foldl_append, ← share_append]
      rfl

/-- A read of the upstream connection: the relay's new calls are handed to their sessions. -/
theorem handed_read (h : Inv p) (hopen : ∀ j c, p.connection j = some c → c.connected = true)
    (chunk : Bytes × Bytes) :
    Handed { p with upstream := ((⟨p.upstream, []⟩ : Relay Nat).onReadable p.identity chunk).upstream }
      ((⟨p.upstream, []⟩ : Relay Nat).onReadable p.identity chunk).writes (p.onServerRead chunk) := by
  obtain ⟨hq, hw⟩ := reader_queued p.Live p.identity ⟨p.upstream, []⟩ h.queued (fun w hw => by cases hw) chunk
  exact handed_calls _ _ ⟨h.paired, h.own, hq, h.safe⟩ hopen hw

end Proxy

end RedisProxy.System
