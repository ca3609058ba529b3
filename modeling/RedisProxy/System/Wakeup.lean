/-
  RedisProxy.System.Wakeup — sessions that were refused and the entry that wakes them
  (session.cpp, upstream.cpp).

  The proxy of `System.Proxy` with the gate of `Server.Auth`: the upstream starts with
  AUTH where there is a password, and the readers of its queue are AUTH and the sessions.
  Each client's connection has the kernel's registration beside it (`Net.Channel`).

  A push is refused while AUTH is not answered, and where the ring is full; either way
  `OnClientRead` disables reading, and only an `OnServerWrite` of the same session enables
  it again. What the session waits for is its own entry in the queue; neither reason for a
  refusal means that there is one. And the reply that comes enables reading with MOD, which
  fails where reading was disabled with DEL.

  Proved: `awake_iff`, over every run of any clients and any bytes: every session that the
  kernel does not watch for input has an entry in the queue and will be enabled by its
  reply, if and only if no read that begins with a command to push finds the upstream
  blocked and the queue without an entry of its session, and no reply finds its session
  disabled with the descriptor not registered.
-/

import RedisProxy.Server.Auth
import RedisProxy.Client.Session
import RedisProxy.Net.Channel

namespace RedisProxy.System

open Lib Lib.Decimal Wire Net Client Server

structure Front where
  sessions : List Session
  /-- The client connections, `none` for a removed one. -/
  pool : List (Option Channel)
  idCounter : Nat
  gate : Gate Nat

namespace Front

/-- `Session::Identity`. -/
def identityOf (sessions : List Session) (reader : Nat) : Nat :=
  match sessions[reader]? with
  | some s => s.id
  | none => 0

/-- After `UpstreamPool::Init`. -/
def start (n : Nat) (h : 0 < n) (password : Bytes) : Front :=
  ⟨[], [], 0, (Gate.init (identityOf []) n h password).2⟩

/-- A connection of the pool. -/
def connection (p : Front) (k : Nat) : Option Channel := p.pool[k]?.join

def identity (p : Front) : Nat → Nat := identityOf p.sessions

def newClientConnection (p : Front) : Front :=
  { p with
    idCounter := p.idCounter + 1
    sessions := p.sessions ++ [.create (p.idCounter + 1) p.pool.length]
    pool := p.pool ++ [some .opened] }

def removeConnection (p : Front) (k : Nat) : Front := { p with pool := p.pool.set k none }

/-- `Session::OnServerWrite`, on the pool. -/
def answer (p : Front) (bytes : Bytes) : Reader Nat → List (Option Channel)
  | .auth => p.pool
  | .client reader =>
    match p.sessions[reader]? with
    | none => p.pool
    | some s =>
      match p.connection s.clientConn with
      | none => p.pool
      | some d =>
        if d.conn.connected then p.pool.set s.clientConn (some ((d.writeToBuffer bytes).setReadable true))
        else p.pool

def onServerWrite (p : Front) (call : Reader Nat × Bytes) : Front :=
  { p with gate := p.gate.onServerWrite call, pool := p.answer call.2 call.1 }

/-- The `OnServerWrite` calls of a read of the upstream connection. -/
def calls (p : Front) (chunk : Bytes × Bytes) : List (Reader Nat × Bytes) :=
  (Relay.onReadable (Reader.identity p.identity) chunk ⟨p.gate.upstream, []⟩).writes

/-- A read of the upstream connection. -/
def onServerRead (p : Front) (chunk : Bytes × Bytes) : Front :=
  let r := Relay.onReadable (Reader.identity p.identity) chunk ⟨p.gate.upstream, []⟩
  r.writes.foldl onServerWrite { p with gate := { p.gate with upstream := r.upstream } }

/-- `upstreamPool_->PushRequest` with the `k`-th session. -/
def push (p : Front) (k : Nat) (g : Gate Nat) (cmd : Cmd) : Error × Gate Nat :=
  g.put cmd (.client k) (g.upstream.poolPushRequest (Reader.identity p.identity) cmd (.client k))

/-- A session with its connection and the upstream. -/
def peer (p : Front) (s : Session) (c : Connection) : Peer (Gate Nat) := ⟨s, c, p.gate, []⟩

/-- A read of a client's connection. -/
def onClientRead (p : Front) (k : Nat) (chunk : Bytes × Bytes) : Front :=
  match p.sessions[k]?, p.connection k with
  | some s, some d =>
    { p with
      sessions := p.sessions.set k ((p.peer s d.conn).onReadable (p.push k) chunk).session
      -- a refusal is where the handler ends: nothing is written behind its `SetReadable( false )`
      pool := p.pool.set k (some (d.after ((p.peer s d.conn).onReadable (p.push k) chunk).conn))
      gate := ((p.peer s d.conn).onReadable (p.push k) chunk).upstream }
  | _, _ => p

/-- A write event of a client's connection, which may close it. -/
def onClientWrite (p : Front) (k : Nat) (w : WriteResult) : Front :=
  match p.connection k with
  | some d =>
    match d.conn.onWritable w with
    | (.closed, _) => p.removeConnection k
    | (_, c) => { p with pool := p.pool.set k (some { d with conn := c }) }
  | none => p

inductive Event where
  | accept
  | read (conn : Nat) (chunk beyond : Bytes)
  | write (conn : Nat) (w : WriteResult)
  /-- A read error, the end of the stream, or a hang-up. -/
  | close (conn : Nat)
  | serverRead (chunk beyond : Bytes)
  | serverWrite (w : WriteResult)

def step (p : Front) : Event → Front
  | .accept => p.newClientConnection
  | .read k chunk beyond => p.onClientRead k (chunk, beyond)
  | .write k w => p.onClientWrite k w
  | .close k => p.removeConnection k
  | .serverRead chunk beyond => p.onServerRead (chunk, beyond)
  | .serverWrite w => { p with gate := { p.gate with upstream := p.gate.upstream.onWritable w } }

/-! ## What a disabled session waits for -/

/-- An entry of the `k`-th session is in the queue. -/
def Waits (u : Upstream (Reader Nat)) (k : Nat) : Prop := ∃ pair ∈ u.cmdQueue.held, pair.reader = some (.client k)

/-- Every session that was refused, and is not watched for input since, has an entry in the
    queue, and its `OnServerWrite` will find reading disabled in `events`. -/
def Awake (p : Front) : Prop :=
  ∀ k d, p.connection k = some d → d.Deaf → d.conn.readable = false ∧ Waits p.gate.upstream k

/-- The read begins with a push: of the command that is there, or of the first one parsed. -/
def Attempts (s : Session) (chunk beyond : Bytes) : Prop :=
  s.currentCmd ≠ [] ∨
    (s.parser.feed chunk).inputb ≠ [] ∧ ((s.parser.feed chunk).parseRequest beyond s.currentCmd).1 = .ok

/-- Where reading is disabled the descriptor is registered: `EPOLLOUT` was set when it was. -/
def Registered (p : Front) (k : Nat) : Prop :=
  ∀ d, p.connection k = some d → d.conn.readable = false → d.watched ≠ none

/-- No read that begins with a push finds the upstream blocked and no entry of its session,
    and no `OnServerWrite` finds its session disabled and not registered. -/
def Kept (p : Front) : Event → Prop
  | .read k chunk beyond => ∀ s d, p.sessions[k]? = some s → p.connection k = some d →
      Waits p.gate.upstream k ∨ p.gate.Accepts ∨ ¬ Attempts s chunk beyond
  | .serverRead chunk beyond => ∀ k resp, (.client k, resp) ∈ p.calls (chunk, beyond) → p.Registered k
  | _ => True

/-- Always so: each session is its connection's, each entry knows its session's identity,
    the pool's connections are connected, and a disabled one is not watched for input. -/
structure Whole (p : Front) : Prop where
  paired : p.sessions.length = p.pool.length
  own : ∀ k (s : Session), p.sessions[k]? = some s → s.clientConn = k ∧ s.parser.AtRest
  known : ∀ pair ∈ p.gate.upstream.cmdQueue.held, ∀ k, pair.reader = some (.client k) →
    k < p.sessions.length ∧ pair.identity = p.identity k
  connected : ∀ k d, p.connection k = some d → d.conn.connected = true
  deaf : ∀ k d, p.connection k = some d → d.conn.readable = false → d.Deaf

variable {p : Front} {k : Nat} {d : Channel}

theorem connection_eq : p.connection k = some d ↔ p.pool[k]? = some (some d) :=
  Option.join_eq_some_iff

/-! ## A read of a client's connection -/

/-- A push is refused and changes nothing, or appends an entry of the session. -/
theorem push_cases (p : Front) (k : Nat) (g : Gate Nat) (cmd : Cmd) :
    (¬ g.Accepts ∧ p.push k g cmd = (.tryAgain, g)) ∨
      (g.Accepts ∧ ∃ g', p.push k g cmd = (.ok, g') ∧
        g'.upstream.cmdQueue.held = g.upstream.cmdQueue.held ++ [⟨p.identity k, some (.client k)⟩]) := by
  unfold push
  rcases g.poolPushRequest_cases p.identity cmd (.client k) with ⟨hno, hres⟩ | ⟨hyes, u, hres, -, hheld⟩
  · rw [hres]
    exact Or.inl ⟨hno, rfl⟩
  · rw [hres]
    exact Or.inr ⟨hyes, _, rfl, hheld⟩

/-- What a read of the `k`-th session leaves, wherever it ends. -/
structure Reads (p : Front) (k : Nat) (s : Session) (c : Peer (Gate Nat)) : Prop where
  own : c.session.clientConn = s.clientConn ∧ c.session.id = s.id
  connected : c.conn.connected = true
  entries : ∀ pair ∈ c.upstream.upstream.cmdQueue.held,
    pair ∈ p.gate.upstream.cmdQueue.held ∨ pair = ⟨p.identity k, some (.client k)⟩
  grows : ∀ pair ∈ p.gate.upstream.cmdQueue.held, pair ∈ c.upstream.upstream.cmdQueue.held

/-- The session, its input fed. -/
def fed (p : Front) (s : Session) (c : Connection) (chunk : Bytes) : Peer (Gate Nat) :=
  { p.peer s c with session := { s with parser := s.parser.feed chunk } }

variable {s : Session} {c : Connection} {chunk beyond : Bytes} {x : Peer (Gate Nat)}

theorem reads_push (h : Reads p k s x) : Reads p k s (x.pushRequest (p.push k)).2 ∧
    ((x.pushRequest (p.push k)).1 = .ok → Waits (x.pushRequest (p.push k)).2.upstream.upstream k) ∧
    ((x.pushRequest (p.push k)).1 ≠ .ok → (x.pushRequest (p.push k)).1 = .tryAgain ∧ ¬ x.upstream.Accepts ∧
      (x.pushRequest (p.push k)).2.upstream = x.upstream) := by
  unfold Peer.pushRequest
  rcases push_cases p k x.upstream x.session.currentCmd with ⟨hno, hres⟩ | ⟨-, g, hres, hheld⟩
  · rw [hres]
    refine ⟨⟨h.own, h.connected, h.entries, h.grows⟩, fun he => ?_, fun _ => ⟨rfl, hno, rfl⟩⟩
    cases he
  · rw [hres]
    refine ⟨⟨h.own, h.connected, ?_, ?_⟩, fun _ => ?_, fun hne => absurd rfl hne⟩
    · intro pair hp
      have hp : pair ∈ g.upstream.cmdQueue.held := hp
      rw [hheld, List.mem_append, List.mem_singleton] at hp
      rcases hp with hp | hp
      · exact h.entries pair hp
      · exact Or.inr hp
    · intro pair hp
      show pair ∈ g.upstream.cmdQueue.held
      rw [hheld]
      exact List.mem_append_left _ (h.grows pair hp)
    · refine ⟨⟨p.identity k, some (.client k)⟩, ?_, rfl⟩
      show _ ∈ g.upstream.cmdQueue.held
      rw [hheld]
      exact List.mem_append_right _ (List.mem_singleton.mpr rfl)

/-- At the loop's head: nothing has happened yet, or a command of the session is in the queue. -/
structure Head (p : Front) (k : Nat) (s : Session) (c : Connection) (chunk : Bytes) (x : Peer (Gate Nat)) :
    Prop where
  reads : Reads p k s x
  readable : x.conn.readable = c.readable
  first : x = p.fed s c chunk ∨ Waits x.upstream.upstream k

/-- Where the read ends: why reading is disabled. -/
structure Left (p : Front) (k : Nat) (s : Session) (c : Connection) (chunk beyond : Bytes)
    (x : Peer (Gate Nat)) : Prop where
  reads : Reads p k s x
  disabled : x.conn.readable = false →
    c.readable = false ∨ Waits x.upstream.upstream k ∨ (¬ p.gate.Accepts ∧ Attempts s chunk beyond)
  /-- Nothing is enabled. -/
  enabled : x.conn.readable = true → c.readable = true

theorem left_refused (h : Reads p k s x) (hx : (x.pushRequest (p.push k)).1 ≠ .ok)
    (hfirst : (x.upstream = p.gate ∧ Attempts s chunk beyond) ∨ Waits x.upstream.upstream k) :
    Left p k s c chunk beyond ((x.pushRequest (p.push k)).2.refused (x.pushRequest (p.push k)).1).2 := by
  obtain ⟨hreads, -, hrefused⟩ := reads_push h
  obtain ⟨htry, hno, hsame⟩ := hrefused hx
  rw [htry, Peer.refused, if_pos rfl]
  refine ⟨⟨hreads.own, hreads.connected, hreads.entries, hreads.grows⟩, fun _ => Or.inr ?_,
    fun hr => Bool.noConfusion hr⟩
  rcases hfirst with ⟨hgate, hattempts⟩ | hw
  · rw [hgate] at hno
    exact Or.inr ⟨hno, hattempts⟩
  · refine Or.inl ?_
    show Waits (x.pushRequest (p.push k)).2.upstream.upstream k
    rw [hsame]
    exact hw

theorem head_round : Peer.Round (p.push k) beyond (Head p k s c chunk) (fun _ => Left p k s c chunk beyond) where
  drained x h _ := ⟨h.reads, fun hr => Or.inl (h.readable.symm.trans hr), fun hr => h.readable.symm.trans hr⟩
  waits x h _ _ :=
    ⟨⟨h.reads.own, h.reads.connected, h.reads.entries, h.reads.grows⟩,
      fun hr => Or.inl (h.readable.symm.trans hr), fun hr => h.readable.symm.trans hr⟩
  fails x e h _ _ _ _ :=
    ⟨⟨h.reads.own, h.reads.connected, h.reads.entries, h.reads.grows⟩,
      fun hr => Or.inl (h.readable.symm.trans hr), fun hr => h.readable.symm.trans hr⟩
  refuses x e h hin hok he hne := by
    have hparsed : Reads p k s (x.parseRequest beyond).2 :=
      ⟨h.reads.own, h.reads.connected, h.reads.entries, h.reads.grows⟩
    subst he
    refine left_refused hparsed hne ?_
    rcases h.first with rfl | hw
    · exact Or.inl ⟨rfl, Or.inr ⟨hin, hok⟩⟩
    · exact Or.inr hw
  accepts x h _ _ hok := by
    have hparsed : Reads p k s (x.parseRequest beyond).2 :=
      ⟨h.reads.own, h.reads.connected, h.reads.entries, h.reads.grows⟩
    obtain ⟨hreads, hwaits, -⟩ := reads_push hparsed
    exact ⟨⟨hreads.own, hreads.connected, hreads.entries, hreads.grows⟩, h.readable, Or.inr (hwaits hok)⟩

theorem left_onReadable (hs : s.parser.AtRest) (hc : c.connected = true) :
    Left p k s c chunk beyond ((p.peer s c).onReadable (p.push k) (chunk, beyond)) := by
  have hfed : Reads p k s (p.fed s c chunk) := ⟨⟨rfl, rfl⟩, hc, fun _ hp => Or.inl hp, fun _ hp => hp⟩
  refine Peer.onClientRead_rule head_round (hs.feed chunk) (fun _ => ⟨hfed, rfl, Or.inl rfl⟩) ?_ ?_
  · intro e hcmd he hne
    subst he
    exact left_refused hfed hne (Or.inl ⟨rfl, Or.inl hcmd⟩)
  · intro hcmd hok
    obtain ⟨hreads, hwaits, -⟩ := reads_push hfed
    exact ⟨⟨hreads.own, hreads.connected, hreads.entries, hreads.grows⟩, rfl, Or.inr (hwaits hok)⟩

theorem onClientRead_blocked (hno : ¬ x.upstream.Accepts) (ha : x.session.currentCmd ≠ [] ∨
      x.session.parser.inputb ≠ [] ∧ (x.parseRequest beyond).1 = .ok) :
    (Peer.onClientRead (p.push k) beyond x).2.conn.readable = false ∧
      (Peer.onClientRead (p.push k) beyond x).2.upstream = x.upstream := by
  have hpush : ∀ cmd, p.push k x.upstream cmd = (.tryAgain, x.upstream) := by
    intro cmd
    rcases push_cases p k x.upstream cmd with ⟨-, hres⟩ | ⟨hyes, -⟩
    · exact hres
    · exact absurd hyes hno
  have hrefused : ∀ y : Peer (Gate Nat), y.upstream = x.upstream →
      y.pushRequest (p.push k) = (.tryAgain, (y.pushRequest (p.push k)).2) ∧
        (y.pushRequest (p.push k)).2.upstream = x.upstream := by
    intro y hy
    simp only [Peer.pushRequest, hy, hpush]
    exact ⟨trivial, trivial⟩
  unfold Peer.onClientRead
  by_cases hcmd : x.session.currentCmd = []
  · rcases ha with hne | ⟨hin, hok⟩
    · exact absurd hcmd hne
    · rw [if_pos hcmd]
      obtain ⟨n, hn⟩ : ∃ n, x.rounds = n + 1 := by
        refine Nat.exists_eq_succ_of_ne_zero fun h0 => ?_
        unfold Peer.rounds at h0
        split at h0 <;> omega
      have hparse : x.parseRequest beyond = (.ok, (x.parseRequest beyond).2) := Prod.ext hok rfl
      obtain ⟨hres, hup⟩ := hrefused (x.parseRequest beyond).2 rfl
      rw [hn, Peer.readLoop, if_neg hin, hparse]
      dsimp only
      rw [hres]
      exact ⟨rfl, hup⟩
  · obtain ⟨hres, hup⟩ := hrefused x rfl
    rw [if_neg hcmd, hres]
    exact ⟨rfl, hup⟩

/-- A read that begins with a push, the upstream blocked: reading is disabled, and the queue
    is as it was. -/
theorem onReadable_blocked (hno : ¬ p.gate.Accepts) (ha : Attempts s chunk beyond) :
    ((p.peer s c).onReadable (p.push k) (chunk, beyond)).conn.readable = false ∧
      ((p.peer s c).onReadable (p.push k) (chunk, beyond)).upstream = p.gate :=
  onClientRead_blocked (x := p.fed s c chunk) hno ha

/-! ## A read of the upstream connection -/

@[simp] theorem onServerWrite_queue (g : Gate Nat) (call : Reader Nat × Bytes) :
    (g.onServerWrite call).upstream.cmdQueue = g.upstream.cmdQueue := by
  obtain ⟨reader, resp⟩ := call
  cases reader <;> rfl

/-- The entries that are gone were answered. -/
theorem reads_answered (h : Whole p) (chunk : Bytes × Bytes) :
    let r := Relay.onReadable (Reader.identity p.identity) chunk ⟨p.gate.upstream, []⟩
    (∀ pair ∈ r.upstream.cmdQueue.held, pair ∈ p.gate.upstream.cmdQueue.held) ∧
      ∀ k, Waits p.gate.upstream k → Waits r.upstream k ∨ ∃ resp, (.client k, resp) ∈ r.writes := by
  let I : Relay (Reader Nat) → Prop := fun r =>
    (∀ pair ∈ r.upstream.cmdQueue.held, pair ∈ p.gate.upstream.cmdQueue.held) ∧
      ∀ k, Waits p.gate.upstream k → Waits r.upstream k ∨ ∃ resp, (.client k, resp) ∈ r.writes
  refine Relay.onServerRead_rule (I := I) (Q := I)
    ⟨fun _ h _ => h, fun _ h _ _ => h, fun _ h _ _ _ => h, ?_⟩ ⟨fun _ hp => hp, fun _ hw => Or.inl hw⟩
  intro r pair q hI _ _ hheld
  have hpair : pair ∈ p.gate.upstream.cmdQueue.held := hI.1 pair (by rw [hheld]; exact List.mem_cons_self)
  refine ⟨fun pair' hp => hI.1 pair' ?_, fun k hw => ?_⟩
  · rw [hheld]
    exact List.mem_cons_of_mem _ hp
  · rcases hI.2 k hw with ⟨pair', hp, hr⟩ | ⟨resp, hm⟩
    · rw [hheld, List.mem_cons] at hp
      rcases hp with rfl | hp
      · -- its own entry: the identity is the one it was pushed with
        have hid := (h.known _ hpair k hr).2
        refine Or.inr ⟨(r.parseResponse chunk.2).2.upstream.respBuffer, List.mem_append_right _ ?_⟩
        unfold Relay.callFor
        rw [hr]
        dsimp only
        rw [if_pos (by rw [Reader.identity, hid])]
        exact List.mem_singleton.mpr rfl
      · exact Or.inl ⟨pair', hp, hr⟩
    · exact Or.inr ⟨resp, List.mem_append_left _ hm⟩

/-- A reply reaches the connection of its session, if that is in the pool. -/
theorem answer_client (h : Whole p) (resp : Bytes) (k : Nat) :
    p.answer resp (.client k) = match p.connection k with
      | none => p.pool
      | some d => p.pool.set k (some ((d.writeToBuffer resp).setReadable true)) := by
  rw [answer]
  cases hs : p.sessions[k]? with
  | none =>
    have hlen : p.pool.length ≤ k := h.paired ▸ List.getElem?_eq_none_iff.mp hs
    have hconn : p.connection k = none := by rw [connection, List.getElem?_eq_none hlen]; rfl
    rw [hconn]
  | some s =>
    dsimp only
    rw [(h.own k s hs).1]
    cases hconn : p.connection k with
    | none => rfl
    | some d =>
      dsimp only
      rw [if_pos (h.connected k d hconn)]

/-- An `OnServerWrite` leaves the other connections as they are. -/
theorem answer_other (h : Whole p) {call : Reader Nat × Bytes} {j : Nat} (hne : call.1 ≠ .client j) :
    (p.onServerWrite call).connection j = p.connection j := by
  obtain ⟨reader, resp⟩ := call
  show (p.answer resp reader)[j]?.join = p.pool[j]?.join
  cases reader with
  | auth => rfl
  | client k =>
    rw [answer_client h]
    cases p.connection k with
    | none => rfl
    | some d =>
      have hkj : k ≠ j := fun he => hne (congrArg Reader.client he)
      dsimp only
      rw [List.getElem?_set_ne hkj]

/-- Its session's is written to and made readable. -/
theorem answer_own (h : Whole p) {call : Reader Nat × Bytes} {k : Nat} (hcall : call.1 = .client k) :
    (p.onServerWrite call).connection k =
      (p.connection k).map fun d => (d.writeToBuffer call.2).setReadable true := by
  obtain ⟨reader, resp⟩ := call
  obtain rfl : reader = .client k := hcall
  show (p.answer resp (.client k))[k]?.join = _
  rw [answer_client h]
  cases hconn : p.connection k with
  | none => exact hconn
  | some d =>
    have hlt := (List.getElem?_eq_some_iff.mp (connection_eq.mp hconn)).1
    dsimp only
    rw [List.getElem?_set_self hlt]
    rfl

theorem whole_onServerWrite (h : Whole p) (call : Reader Nat × Bytes) : Whole (p.onServerWrite call) := by
  have hold : ∀ j d', (p.onServerWrite call).connection j = some d' →
      d'.conn.connected = true ∧ (d'.conn.readable = false → d'.Deaf) := by
    intro j d' hd
    by_cases hj : call.1 = .client j
    · rw [answer_own h hj] at hd
      obtain ⟨d, hconn, rfl⟩ := Option.map_eq_some_iff.mp hd
      rw [Channel.setReadable_conn]
      exact ⟨h.connected j d hconn, fun hr => Bool.noConfusion hr⟩
    · rw [answer_other h hj] at hd
      exact ⟨h.connected j d' hd, h.deaf j d' hd⟩
  refine ⟨?_, h.own, ?_, fun j d hd => (hold j d hd).1, fun j d hd => (hold j d hd).2⟩
  · show p.sessions.length = (p.answer call.2 call.1).length
    rw [h.paired]
    unfold answer
    repeat' split
    all_goals simp
  · intro pair hp
    have hp : pair ∈ (p.gate.onServerWrite call).upstream.cmdQueue.held := hp
    rw [onServerWrite_queue] at hp
    exact h.known pair hp

theorem whole_calls (calls : List (Reader Nat × Bytes)) :
    ∀ p : Front, Whole p → Whole (calls.foldl onServerWrite p) := by
  induction calls with
  | nil => intro p h; exact h
  | cons call calls ih => intro p h; exact ih _ (whole_onServerWrite h call)

/-- A session that its reply did not make readable: `events` says that it is. -/
def Lost (p : Front) (k : Nat) : Prop := ∃ d, p.connection k = some d ∧ d.conn.readable = true ∧ d.Deaf

/-- A later reply finds nothing to enable. -/
theorem lost_onServerWrite (h : Whole p) (hk : Lost p k) (call : Reader Nat × Bytes) :
    Lost (p.onServerWrite call) k := by
  obtain ⟨d, hconn, hr, hdeaf⟩ := hk
  by_cases hcall : call.1 = .client k
  · refine ⟨(d.writeToBuffer call.2).setReadable true, ?_, ?_, ?_⟩
    · rw [answer_own h hcall, hconn]
      rfl
    · rw [Channel.setReadable_conn]
      rfl
    · unfold Channel.Deaf
      rw [Channel.answered_same hr]
      exact hdeaf
  · exact ⟨d, (answer_other h hcall).trans hconn, hr, hdeaf⟩

theorem lost_calls (calls : List (Reader Nat × Bytes)) :
    ∀ p : Front, Whole p → Lost p k → Lost (calls.foldl onServerWrite p) k := by
  induction calls with
  | nil => intro p _ hk; exact hk
  | cons call calls ih => intro p h hk; exact ih _ (whole_onServerWrite h call) (lost_onServerWrite h hk call)

/-- A session that is not registered is lost by its reply. -/
theorem lost_of_answer (h : Whole p) (hk : ¬ p.Registered k) {call : Reader Nat × Bytes}
    (hcall : call.1 = .client k) : Lost (p.onServerWrite call) k := by
  simp only [Registered, not_forall, not_not] at hk
  obtain ⟨d, hconn, hr, hw⟩ := hk
  refine ⟨(d.writeToBuffer call.2).setReadable true, ?_, ?_, (Channel.answered_deaf hr call.2).mpr hw⟩
  · rw [answer_own h hcall, hconn]
    rfl
  · rw [Channel.setReadable_conn]
    rfl

/-- The calls still to be made wake the sessions whose entries are gone. -/
theorem awake_calls (calls : List (Reader Nat × Bytes)) :
    ∀ p : Front, Whole p → (∀ k d, p.connection k = some d → d.Deaf → d.conn.readable = false ∧
        (Waits p.gate.upstream k ∨ ∃ resp, (.client k, resp) ∈ calls)) →
      (∀ k resp, (.client k, resp) ∈ calls → p.Registered k) → Awake (calls.foldl onServerWrite p) := by
  induction calls with
  | nil =>
    intro p h ha _ k d hc hdeaf
    obtain ⟨hr, hw | ⟨resp, hm⟩⟩ := ha k d hc hdeaf
    · exact ⟨hr, hw⟩
    · cases hm
  | cons call calls ih =>
    intro p h ha hreg
    refine ih _ (whole_onServerWrite h call) (fun k d' hc hdeaf => ?_) fun k resp hm d' hc hr => ?_
    · by_cases hcall : call.1 = .client k
      · -- its reply: it was registered, or not disabled
        exfalso
        rw [answer_own h hcall] at hc
        obtain ⟨d, hconn, rfl⟩ := Option.map_eq_some_iff.mp hc
        by_cases hr : d.conn.readable = true
        · unfold Channel.Deaf at hdeaf
          rw [Channel.answered_same hr] at hdeaf
          exact Bool.noConfusion (hr.symm.trans (ha k d hconn hdeaf).1)
        · have hr : d.conn.readable = false := Bool.eq_false_iff.mpr hr
          have hmem : (Reader.client k, call.2) ∈ call :: calls := hcall ▸ List.mem_cons_self
          exact hreg k call.2 hmem d hconn hr ((Channel.answered_deaf hr call.2).mp hdeaf)
      · rw [answer_other h hcall] at hc
        obtain ⟨hr, ⟨pair, hp, hk⟩ | ⟨resp, hm⟩⟩ := ha k d' hc hdeaf
        · refine ⟨hr, Or.inl ⟨pair, ?_, hk⟩⟩
          show pair ∈ (p.gate.onServerWrite call).upstream.cmdQueue.held
          rw [onServerWrite_queue]
          exact hp
        · rcases List.mem_cons.mp hm with rfl | hm
          · exact absurd rfl hcall
          · exact ⟨hr, Or.inr ⟨resp, hm⟩⟩
    · by_cases hcall : call.1 = .client k
      · rw [answer_own h hcall] at hc
        obtain ⟨d, -, rfl⟩ := Option.map_eq_some_iff.mp hc
        rw [Channel.setReadable_conn] at hr
        cases hr
      · rw [answer_other h hcall] at hc
        exact hreg k resp (List.mem_cons_of_mem _ hm) d' hc hr

/-- Each of them found its session registered. -/
theorem registered_calls (calls : List (Reader Nat × Bytes)) :
    ∀ p : Front, Whole p → Awake (calls.foldl onServerWrite p) →
      ∀ k resp, (.client k, resp) ∈ calls → p.Registered k := by
  induction calls with
  | nil => intro p _ _ k resp hm; cases hm
  | cons call calls ih =>
    intro p h ha k resp hm
    by_contra hno
    by_cases hcall : call.1 = .client k
    · obtain ⟨d, hconn, hr, hdeaf⟩ := lost_calls calls _ (whole_onServerWrite h _) (lost_of_answer h hno hcall)
      exact Bool.noConfusion (hr.symm.trans (ha k d hconn hdeaf).1)
    · rcases List.mem_cons.mp hm with rfl | hm
      · exact hcall rfl
      · refine hno fun d hconn => ?_
        exact ih _ (whole_onServerWrite h call) ha k resp hm d ((answer_other h hcall).trans hconn)

theorem serverRead_step (h : Whole p) (chunk beyond : Bytes) :
    Whole (p.onServerRead (chunk, beyond)) ∧
      (Awake p → (p.Kept (.serverRead chunk beyond) ↔ Awake (p.onServerRead (chunk, beyond)))) := by
  obtain ⟨hkept, hanswered⟩ := reads_answered h (chunk, beyond)
  let r := Relay.onReadable (Reader.identity p.identity) (chunk, beyond) ⟨p.gate.upstream, []⟩
  let q : Front := { p with gate := { p.gate with upstream := r.upstream } }
  have hread : Whole q := ⟨h.paired, h.own, fun pair hp => h.known pair (hkept pair hp), h.connected, h.deaf⟩
  refine ⟨whole_calls _ _ hread, fun ha => ⟨fun hreg => ?_, fun hawake => registered_calls _ q hread hawake⟩⟩
  refine awake_calls _ q hread (fun k d hc hdeaf => ?_) hreg
  obtain ⟨hr, hw⟩ := ha k d hc hdeaf
  exact ⟨hr, hanswered k hw⟩

/-! ## The other events -/

theorem start_whole (n : Nat) (h : 0 < n) (password : Bytes) :
    Whole (start n h password) ∧ Awake (start n h password) := by
  refine ⟨⟨rfl, ?_, ?_, ?_, ?_⟩, ?_⟩
  · intro k s hs
    cases hs
  · intro pair hp k hk
    rw [Gate.init_held n h password hp] at hk
    cases hk
  all_goals
    intro k d hd
    cases hd

theorem accept_step (h : Whole p) :
    Whole p.newClientConnection ∧ (Awake p → Awake p.newClientConnection) := by
  have hold : ∀ {k d}, p.newClientConnection.connection k = some d →
      p.connection k = some d ∨ d = .opened := by
    intro k d hc
    have hc : (p.pool ++ [some .opened])[k]? = some (some d) := connection_eq.mp hc
    by_cases hk : k < p.pool.length
    · rw [List.getElem?_append_left hk] at hc
      exact Or.inl (connection_eq.mpr hc)
    · rw [List.getElem?_append_right (Nat.le_of_not_lt hk), List.getElem?_singleton] at hc
      split at hc
      · exact Or.inr (Option.some.inj (Option.some.inj hc)).symm
      · cases hc
  refine ⟨⟨?_, ?_, ?_, ?_, ?_⟩, ?_⟩
  · show (p.sessions ++ _).length = (p.pool ++ _).length
    rw [List.length_append, List.length_append, h.paired]
    rfl
  · intro k s hs
    have hs : (p.sessions ++ [Session.create (p.idCounter + 1) p.pool.length])[k]? = some s := hs
    by_cases hk : k < p.sessions.length
    · rw [List.getElem?_append_left hk] at hs
      exact h.own k s hs
    · rw [List.getElem?_append_right (Nat.le_of_not_lt hk), List.getElem?_singleton] at hs
      split at hs
      · obtain rfl := Option.some.inj hs
        refine ⟨?_, CmdParser.atRest_init⟩
        show p.pool.length = k
        rw [← h.paired]
        omega
      · cases hs
  · intro pair hp k hk
    obtain ⟨hlt, hid⟩ := h.known pair hp k hk
    refine ⟨?_, ?_⟩
    · show k < (p.sessions ++ _).length
      rw [List.length_append]
      omega
    · rw [hid]
      show identityOf p.sessions k = identityOf (p.sessions ++ _) k
      rw [identityOf, identityOf, List.getElem?_append_left hlt]
  · intro k d hc
    rcases hold hc with hc | rfl
    · exact h.connected k d hc
    · rfl
  · intro k d hc hr
    rcases hold hc with hc | rfl
    · exact h.deaf k d hc hr
    · cases hr
  · intro ha k d hc hdeaf
    rcases hold hc with hc | rfl
    · exact ha k d hc hdeaf
    · cases hdeaf

/-- What a connection changed to, or nothing, where neither bit nor registration of it did. -/
structure Same (d d' : Channel) : Prop where
  connected : d'.conn.connected = d.conn.connected
  readable : d'.conn.readable = d.conn.readable
  watched : d'.watched = d.watched

/-- A connection changed, or removed. -/
theorem pool_step (h : Whole p) {v : Option Channel}
    (hv : ∀ d', v = some d' → ∃ d, p.connection k = some d ∧ Same d d') :
    Whole { p with pool := p.pool.set k v } ∧ (Awake p → Awake { p with pool := p.pool.set k v }) := by
  have hold : ∀ {j d'}, connection { p with pool := p.pool.set k v } j = some d' →
      ∃ d, p.connection j = some d ∧ Same d d' := by
    intro j d' hc
    have hc : (p.pool.set k v)[j]? = some (some d') := connection_eq.mp hc
    by_cases hkj : k = j
    · subst hkj
      rw [List.getElem?_set] at hc
      simp only [if_true] at hc
      split at hc
      · exact hv d' (Option.some.inj hc)
      · cases hc
    · rw [List.getElem?_set_ne hkj] at hc
      exact ⟨d', connection_eq.mpr hc, rfl, rfl, rfl⟩
  have hdeaf : ∀ {d d' : Channel}, Same d d' → (d'.Deaf ↔ d.Deaf) := by
    intro d d' hsame
    unfold Channel.Deaf
    rw [hsame.watched]
  refine ⟨⟨?_, h.own, h.known, ?_, ?_⟩, ?_⟩
  · show p.sessions.length = (p.pool.set k v).length
    rw [List.length_set]
    exact h.paired
  · intro j d' hc
    obtain ⟨d, hconn, hsame⟩ := hold hc
    rw [hsame.connected]
    exact h.connected j d hconn
  · intro j d' hc hr
    obtain ⟨d, hconn, hsame⟩ := hold hc
    exact (hdeaf hsame).mpr (h.deaf j d hconn (hsame.readable.symm.trans hr))
  · intro ha j d' hc hd
    obtain ⟨d, hconn, hsame⟩ := hold hc
    rw [hsame.readable]
    exact ha j d hconn ((hdeaf hsame).mp hd)

theorem write_step (h : Whole p) (k : Nat) (w : WriteResult) :
    Whole (p.onClientWrite k w) ∧ (Awake p → Awake (p.onClientWrite k w)) := by
  unfold onClientWrite
  cases hc : p.connection k with
  | none => exact ⟨h, id⟩
  | some d =>
    dsimp only
    rcases hw : d.conn.onWritable w with ⟨e, c'⟩
    by_cases he : e = .closed
    · subst he
      exact pool_step h fun d' hv => by cases hv
    · have hopen : (d.conn.onWritable w).1 ≠ .closed := by rw [hw]; exact he
      have hsame := Connection.onWritable_open hopen
      rw [hw] at hsame
      split
      · rename_i heq
        exact absurd (congrArg Prod.fst heq) he
      · rename_i c _ heq
        obtain ⟨-, rfl⟩ := Prod.mk.inj heq
        refine pool_step h fun d' hd => ⟨d, hc, ?_⟩
        obtain rfl := Option.some.inj hd
        exact ⟨hsame.1, hsame.2, rfl⟩

/-- What `onClientRead` makes of the peer it leaves. -/
def put (p : Front) (k : Nat) (d : Channel) (x : Peer (Gate Nat)) : Front :=
  ⟨p.sessions.set k x.session, p.pool.set k (some (d.after x.conn)), p.idCounter, x.upstream⟩

theorem onClientRead_eq (hs : p.sessions[k]? = some s) (hc : p.connection k = some d) (chunk : Bytes × Bytes) :
    p.onClientRead k chunk = p.put k d ((p.peer s d.conn).onReadable (p.push k) chunk) := by
  unfold onClientRead
  rw [hs, hc]
  rfl

/-- The session's connection is the one read; the others are as they were. -/
theorem connection_put (hk : k < p.pool.length) {j : Nat} {d' : Channel}
    (hj : (p.put k d x).connection j = some d') : j = k ∧ d' = d.after x.conn ∨ j ≠ k ∧ p.connection j = some d' := by
  have hj : (p.pool.set k (some (d.after x.conn)))[j]? = some (some d') := connection_eq.mp hj
  by_cases hkj : k = j
  · subst hkj
    rw [List.getElem?_set_self hk] at hj
    exact Or.inl ⟨rfl, (Option.some.inj (Option.some.inj hj)).symm⟩
  · rw [List.getElem?_set_ne hkj] at hj
    exact Or.inr ⟨fun he => hkj he.symm, connection_eq.mpr hj⟩

theorem identity_put (hs : p.sessions[k]? = some s) (hid : x.session.id = s.id) (j : Nat) :
    (p.put k d x).identity j = p.identity j := by
  show identityOf (p.sessions.set k x.session) j = _
  unfold identity identityOf
  by_cases hkj : k = j
  · subst hkj
    rw [List.getElem?_set_self (List.getElem?_eq_some_iff.mp hs).1, hs]
    exact hid
  · rw [List.getElem?_set_ne hkj]

theorem whole_put (h : Whole p) (hs : p.sessions[k]? = some s) (hc : p.connection k = some d) (hx : Reads p k s x)
    (hparser : x.session.parser.AtRest) : Whole (p.put k d x) := by
  have hk := (List.getElem?_eq_some_iff.mp (connection_eq.mp hc)).1
  refine ⟨?_, ?_, ?_, ?_, ?_⟩
  · show (p.sessions.set k x.session).length = (p.pool.set k (some (d.after x.conn))).length
    rw [List.length_set, List.length_set]
    exact h.paired
  · intro j t ht
    have ht : (p.sessions.set k x.session)[j]? = some t := ht
    rw [List.getElem?_set] at ht
    split at ht
    · rename_i hkj
      split at ht
      · obtain rfl := Option.some.inj ht
        exact ⟨hx.own.1.trans ((h.own k s hs).1.trans hkj), hparser⟩
      · cases ht
    · exact h.own j t ht
  · intro pair hp j hj
    show j < (p.sessions.set k x.session).length ∧ pair.identity = (p.put k d x).identity j
    rw [List.length_set, identity_put hs hx.own.2]
    rcases hx.entries pair hp with hp | rfl
    · exact h.known pair hp j hj
    · obtain rfl := Reader.client.inj (Option.some.inj hj)
      exact ⟨h.paired ▸ hk, rfl⟩
  · intro j d' hj
    rcases connection_put hk hj with ⟨-, rfl⟩ | ⟨-, hj⟩
    · rw [Channel.after_conn]
      exact hx.connected
    · exact h.connected j d' hj
  · intro j d' hj hr
    rcases connection_put hk hj with ⟨-, rfl⟩ | ⟨-, hj⟩
    · rw [Channel.after_conn] at hr
      exact Channel.after_deaf (h.deaf k d hc) hr
    · exact h.deaf j d' hj hr

/-- The session read waits for nothing only where it was refused with no entry of its own. -/
theorem awake_put (h : Whole p) (ha : Awake p) (hc : p.connection k = some d) (hx : Left p k s d.conn chunk beyond x)
    (hkept : Waits p.gate.upstream k ∨ p.gate.Accepts ∨ ¬ Attempts s chunk beyond) : Awake (p.put k d x) := by
  have hgrows : ∀ j, Waits p.gate.upstream j → Waits x.upstream.upstream j := by
    rintro j ⟨pair, hp, hj⟩
    exact ⟨pair, hx.reads.grows pair hp, hj⟩
  intro j d' hj hdeaf
  rcases connection_put (List.getElem?_eq_some_iff.mp (connection_eq.mp hc)).1 hj with ⟨rfl, rfl⟩ | ⟨-, hj⟩
  · by_cases hr : x.conn.readable = true
    · -- a read does not enable reading, so what is not watched was not before
      have hwas := hx.enabled hr
      unfold Channel.Deaf at hdeaf
      rw [Channel.after_same (hr.trans hwas.symm)] at hdeaf
      exact Bool.noConfusion (hwas.symm.trans (ha j d hc hdeaf).1)
    · have hr : x.conn.readable = false := Bool.eq_false_iff.mpr hr
      rw [Channel.after_conn]
      refine ⟨hr, ?_⟩
      show Waits x.upstream.upstream j
      rcases hx.disabled hr with hwas | hw | ⟨hno, hattempts⟩
      · exact hgrows j (ha j d hc (h.deaf j d hc hwas)).2
      · exact hw
      · rcases hkept with hw | hyes | hnot
        · exact hgrows j hw
        · exact absurd hyes hno
        · exact absurd hattempts hnot
  · obtain ⟨hr, hw⟩ := ha j d' hj hdeaf
    exact ⟨hr, hgrows j hw⟩

theorem read_step (h : Whole p) (k : Nat) (chunk beyond : Bytes) :
    Whole (p.onClientRead k (chunk, beyond)) ∧
      (Awake p → (p.Kept (.read k chunk beyond) ↔ Awake (p.onClientRead k (chunk, beyond)))) := by
  cases hs : p.sessions[k]? with
  | none =>
    unfold onClientRead Kept
    rw [hs]
    exact ⟨h, fun ha => ⟨fun _ => ha, fun _ s _ hs' => absurd (hs.symm.trans hs').symm (Option.some_ne_none s)⟩⟩
  | some s =>
    cases hc : p.connection k with
    | none =>
      unfold onClientRead Kept
      rw [hs, hc]
      exact ⟨h, fun ha => ⟨fun _ => ha, fun _ _ d _ hc' => absurd (hc.symm.trans hc').symm (Option.some_ne_none d)⟩⟩
    | some d =>
      have hrest := (h.own k s hs).2
      have hk : k < p.pool.length := (List.getElem?_eq_some_iff.mp (connection_eq.mp hc)).1
      have hleft : Left p k s d.conn chunk beyond ((p.peer s d.conn).onReadable (p.push k) (chunk, beyond)) :=
        left_onReadable hrest (h.connected k d hc)
      have hparser : ((p.peer s d.conn).onReadable (p.push k) (chunk, beyond)).session.parser.AtRest :=
        Peer.onReadable_atRest hrest (chunk, beyond)
      rw [onClientRead_eq hs hc]
      have hput := whole_put h hs hc hleft.reads hparser
      refine ⟨hput, fun ha => ⟨fun hkept => ?_, fun hawake s' d' hs' hc' => ?_⟩⟩
      · exact awake_put h ha hc hleft (hkept s d hs hc)
      · rw [hs] at hs'
        obtain rfl := Option.some.inj hs'
        by_cases hyes : p.gate.Accepts
        · exact Or.inr (Or.inl hyes)
        by_cases hattempts : Attempts s chunk beyond
        · -- refused at once: disabled, and the queue is as it was
          obtain ⟨hr, hgate⟩ := onReadable_blocked (c := d.conn) hyes hattempts
          have hnow : (p.put k d ((p.peer s d.conn).onReadable (p.push k) (chunk, beyond))).connection k = some _ :=
            connection_eq.mpr (List.getElem?_set_self hk)
          have hdeaf := hput.deaf k _ hnow (by rw [Channel.after_conn]; exact hr)
          have hw := (hawake k _ hnow hdeaf).2
          have hw : Waits ((p.peer s d.conn).onReadable (p.push k) (chunk, beyond)).upstream.upstream k := hw
          rw [hgate] at hw
          exact Or.inl hw
        · exact Or.inr (Or.inr hattempts)

/-! ## Over a run -/

theorem step_whole (h : Whole p) (e : Event) : Whole (p.step e) := by
  cases e with
  | accept => exact (accept_step h).1
  | read k chunk beyond => exact (read_step h k chunk beyond).1
  | write k w => exact (write_step h k w).1
  | close k => exact (pool_step h fun d' hv => by cases hv).1
  | serverRead chunk beyond => exact (serverRead_step h chunk beyond).1
  | serverWrite w => exact ⟨h.paired, h.own, h.known, h.connected, h.deaf⟩

theorem kept_iff (h : Whole p) (ha : Awake p) (e : Event) : p.Kept e ↔ Awake (p.step e) := by
  cases e with
  | accept => exact ⟨fun _ => (accept_step h).2 ha, fun _ => trivial⟩
  | read k chunk beyond => exact (read_step h k chunk beyond).2 ha
  | write k w => exact ⟨fun _ => (write_step h k w).2 ha, fun _ => trivial⟩
  | close k => exact ⟨fun _ => (pool_step h fun d' hv => by cases hv).2 ha, fun _ => trivial⟩
  | serverRead chunk beyond => exact (serverRead_step h chunk beyond).2 ha
  | serverWrite w => exact ⟨fun _ => ha, fun _ => trivial⟩

/-- In every state of a run every session that is not watched for input has an entry in the
    queue and reading disabled in `events`, if and only if no read that begins with a push
    finds the upstream blocked and none of its entries there, and no reply finds its session
    disabled and not registered. -/
theorem awake_iff (n : Nat) (h : 0 < n) (password : Bytes) (events : List Event) :
    Runs.Each step Kept (start n h password) events ↔
      Runs.Each step (fun p e => Awake (p.step e)) (start n h password) events := by
  obtain ⟨hwhole, hawake⟩ := start_whole n h password
  have hstep : ∀ p e, Whole p → Whole (step p e) := fun _ e h => step_whole h e
  have hkept : ∀ p e, Whole p → Awake p → (p.Kept e ↔ Awake (step p e)) := fun _ e h ha => kept_iff h ha e
  exact Runs.each_exact hstep hkept events _ hwhole hawake

/-- A command of one byte. -/
def request : Bytes := [42, 49, 13, 10, 36, 49, 13, 10, 80, 13, 10]

/-- The ring has room for one entry. The session is refused while it has a reply to write, so
    the next reply makes it readable. -/
def laterEvents : List Event :=
  [.accept, .serverRead [43, 79, 75, 13, 10] [], .read 0 request [], .serverRead [58, 49, 13, 10] [],
    .read 0 (request ++ request) [], .serverRead [58, 50, 13, 10] []]

/-- The connection is there to look at. -/
def registered (p : Front) : Reader Nat → Bool
  | .auth => true
  | .client k => (p.connection k).all fun d => d.conn.readable || d.watched.isSome

theorem registered_all {chunk : Bytes × Bytes} (h : (p.calls chunk).all (fun call => p.registered call.1) = true) :
    ∀ k resp, (.client k, resp) ∈ p.calls chunk → p.Registered k := by
  intro k resp hm d hc hr hw
  have hall := List.all_eq_true.mp h _ hm
  rw [registered, hc, Option.all_some, hr, hw] at hall
  cases hall

theorem later_kept : Runs.Each step Kept (start 2 (by decide) Gate.password6) laterEvents := by
  have haccepts : ∀ {p : Front} {k chunk beyond}, p.gate.upstream.isAcceptable = true ∧
      p.gate.upstream.cmdQueue.held.length + 1 < p.gate.upstream.cmdQueue.holder.length →
        Kept p (.read k chunk beyond) := fun h _ _ _ _ => Or.inr (Or.inl h)
  refine ⟨trivial, registered_all (by decide), haccepts (by decide), registered_all (by decide),
    haccepts (by decide), registered_all (by decide), trivial⟩

theorem awake_later :
    0 < 2 ∧ Runs.Each step (fun p e => Awake (p.step e)) (start 2 (by decide) Gate.password6) laterEvents :=
  ⟨by decide, (awake_iff 2 (by decide) Gate.password6 laterEvents).mp later_kept⟩

/-- Refused with nothing to write: the reply makes it a writer, MOD fails, and nothing waits. -/
example :
    let p := [Event.accept, .read 0 (request ++ request) [], .serverRead [58, 49, 13, 10] []].foldl step
      (start 2 (by decide) [])
    p.connection 0 = some ⟨⟨true, true, true, false, [58, 49, 13, 10]⟩, none⟩ ∧ p.gate.upstream.cmdQueue.held = [] := by
  decide

/-- A client's `PING` before the reply to AUTH. -/
def earlyEvents : List Event :=
  [.accept, .read 0 [42, 49, 13, 10, 36, 52, 13, 10, 80, 73, 78, 71, 13, 10] []]

/-- The session is disabled, and the queue has only AUTH. -/
theorem early_session_sleeps :
    let p := earlyEvents.foldl step (start 4 (by decide) Gate.password6)
    p.connection 0 = some ⟨{ Connection.opened with readable := false }, none⟩ ∧ ¬ Waits p.gate.upstream 0 ∧
      ¬ Runs.Each step (fun p e => Awake (p.step e)) (start 4 (by decide) Gate.password6) earlyEvents := by
  have hconn : (earlyEvents.foldl step (start 4 (by decide) Gate.password6)).connection 0 =
      some ⟨{ Connection.opened with readable := false }, none⟩ := by decide
  have hsleeps : ¬ Waits (earlyEvents.foldl step (start 4 (by decide) Gate.password6)).gate.upstream 0 := by
    rintro ⟨pair, hp, hk⟩
    have hauth : (earlyEvents.foldl step (start 4 (by decide) Gate.password6)).gate.upstream.cmdQueue.held =
        [⟨0, some .auth⟩] := by decide
    rw [hauth] at hp
    rw [List.mem_singleton.mp hp] at hk
    cases hk
  refine ⟨hconn, hsleeps, ?_⟩
  rintro ⟨-, hawake, -⟩
  exact hsleeps (hawake 0 _ hconn rfl).2

end Front

end RedisProxy.System
