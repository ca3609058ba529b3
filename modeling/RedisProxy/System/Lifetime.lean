/-
  RedisProxy.System.Lifetime — the connections that replies are delivered through.

  The queue keeps the reader of each command, and a reply goes to its session's
  `clientConn_`. The check before (`Identity`) never fails: sessions stay, and so do
  their ids. What it is to tell, whether the client is still there, shows only in the
  pool, which it does not look at.

  Proved: `live_served`, over every run of any clients and any bytes, from what each
  event does to the queue, the sessions and the pool: where no connection is removed
  while a command of its session is in the queue (`Settled`), every `OnServerWrite` is
  called with the connection in the pool. `served_removed` is a run with one other close.
-/

import RedisProxy.System.Proxy

namespace RedisProxy.System.Proxy

open Lib Lib.Decimal Wire Net Client Server

/-- An entry of the `k`-th session is in the queue. -/
def Waits (p : Proxy) (k : Nat) : Prop := ∃ pair ∈ p.upstream.cmdQueue.held, pair.reader = some k

instance (p : Proxy) (k : Nat) : Decidable (Waits p k) :=
  inferInstanceAs (Decidable (∃ pair ∈ p.upstream.cmdQueue.held, pair.reader = some k))

/-- A client's connection is removed only when none of its commands is in the queue. -/
def Settled (p : Proxy) : Event → Prop
  | .close k => ¬ Waits p k
  | .write k w => ∀ c, p.connection k = some c → (c.onWritable w).1 = .closed → ¬ Waits p k
  | _ => True

/-- Every call of `OnServerWrite` found the connection in the pool. -/
def Safe (p : Proxy) : Prop := ∀ c ∈ p.served, c.live = true

def Live (p : Proxy) (k : Nat) : Prop := ∃ c, p.connection k = some c

/-- The entries' connections are in the pool. -/
structure Inv (p : Proxy) : Prop where
  paired : p.sessions.length = p.pool.length
  own : ∀ k (s : Session), p.sessions[k]? = some s → s.clientConn = k ∧ s.parser.AtRest
  queued : ∀ pair ∈ p.upstream.cmdQueue.held, ∀ k, pair.reader = some k → p.Live k
  safe : p.Safe

variable {p : Proxy} {k : Nat}

/-! ## The pool -/

theorem connection_eq {c : Connection} : p.connection k = some c ↔ p.pool[k]? = some (some c) :=
  Option.join_eq_some_iff

theorem live_lt (h : p.Live k) : k < p.pool.length := by
  obtain ⟨c, hc⟩ := h
  exact (List.getElem?_eq_some_iff.mp (connection_eq.mp hc)).1

/-- A connection of the pool that is changed stays there, like the others. -/
theorem live_set {q : Proxy} {c : Connection} (hq : q.pool = p.pool.set k (some c)) {j : Nat}
    (h : p.Live j) : q.Live j := by
  obtain ⟨d, hd⟩ := h
  have hd := connection_eq.mp hd
  have hj := (List.getElem?_eq_some_iff.mp hd).1
  by_cases e : k = j
  · refine ⟨c, connection_eq.mpr ?_⟩
    rw [hq, List.getElem?_set, if_pos e, if_pos (e ▸ hj)]
  · refine ⟨d, connection_eq.mpr ?_⟩
    rw [hq, List.getElem?_set, if_neg e, hd]

theorem live_remove {j : Nat} (hne : j ≠ k) (h : p.Live j) : (p.removeConnection k).Live j := by
  obtain ⟨d, hd⟩ := h
  refine ⟨d, connection_eq.mpr ?_⟩
  rw [removeConnection, List.getElem?_set, if_neg (fun e => hne e.symm)]
  exact connection_eq.mp hd

/-- A write closes the connection, or leaves it in the pool. -/
theorem write_closes {c : Connection} (hc : p.connection k = some c) {w : WriteResult}
    (hclosed : (c.onWritable w).1 = .closed) : p.onClientWrite k w = p.removeConnection k := by
  unfold onClientWrite
  rw [hc]
  dsimp only
  split
  · rfl
  · rename_i hne heq
    rw [heq] at hclosed
    exact absurd hclosed hne

theorem write_stays {c : Connection} (hc : p.connection k = some c) {w : WriteResult}
    (hopen : (c.onWritable w).1 ≠ .closed) :
    p.onClientWrite k w = { p with pool := p.pool.set k (some (c.onWritable w).2) } := by
  unfold onClientWrite
  rw [hc]
  dsimp only
  split
  · rename_i heq
    exact absurd (congrArg Prod.fst heq) hopen
  · rename_i heq
    rw [heq]

/-- A session's `clientConn_` denotes the connection it was created with. -/
theorem clientConn_eq (h : Inv p) (hk : k < p.pool.length) : p.clientConn k = p.connection k := by
  have hs : p.sessions[k]? = some (p.sessions.get ⟨k, h.paired ▸ hk⟩) := List.getElem?_eq_getElem _
  rw [clientConn, hs]
  show p.connection _ = _
  rw [(h.own k _ hs).1]

/-! ## What the events do -/

theorem inv_start (n : Nat) (h : 0 < n) : Inv (start n h) where
  paired := rfl
  own k s hs := by cases hs
  queued pair hp := by
    have hp : pair ∈ (Recycle.create n h : Recycle (ReaderPair Nat)).held := hp
    rw [Recycle.held_create] at hp
    cases hp
  safe c hc := by cases hc

theorem inv_accept (h : Inv p) : Inv p.newClientConnection where
  paired := by
    show (p.sessions ++ _).length = (p.pool ++ _).length
    rw [List.length_append, List.length_append, h.paired]
    rfl
  own k s hs := by
    have hs : (p.sessions ++ [Session.create (p.idCounter + 1) p.pool.length])[k]? = some s := hs
    by_cases hk : k < p.sessions.length
    · rw [List.getElem?_append_left hk] at hs
      exact h.own k s hs
    · rw [List.getElem?_append_right (Nat.le_of_not_lt hk), List.getElem?_singleton] at hs
      split at hs
      · obtain rfl := Option.some.inj hs
        refine ⟨?_, CmdParser.atRest_init⟩
        show p.pool.length = k
        rw [← h.paired]
        omega
      · cases hs
  queued pair hp k hk := by
    obtain ⟨c, hc⟩ := h.queued pair hp k hk
    refine ⟨c, connection_eq.mpr ?_⟩
    show (p.pool ++ _)[k]? = _
    rw [List.getElem?_append_left (live_lt ⟨c, hc⟩)]
    exact connection_eq.mp hc
  safe := h.safe

theorem inv_remove (h : Inv p) (hk : ¬ Waits p k) : Inv (p.removeConnection k) where
  paired := by rw [removeConnection, List.length_set]; exact h.paired
  own := h.own
  queued pair hp j hj := live_remove (fun e => hk ⟨pair, hp, e ▸ hj⟩) (h.queued pair hp j hj)
  safe := h.safe

theorem inv_write (h : Inv p) {w : WriteResult} (hk : Settled p (.write k w)) :
    Inv (p.onClientWrite k w) := by
  unfold onClientWrite
  split
  · rename_i c hc
    split
    · rename_i c' hw
      exact inv_remove h (hk c hc (by rw [hw]))
    · refine ⟨?_, h.own, fun pair hp j hj => live_set rfl (h.queued pair hp j hj), h.safe⟩
      show p.sessions.length = (p.pool.set _ _).length
      rw [List.length_set]
      exact h.paired
  · exact h

/-- A push adds at most an entry for its reader. -/
theorem push_reader (p : Proxy) (k : Nat) (u : Upstream Nat) (cmd : Cmd) {pair : ReaderPair Nat}
    (h : pair ∈ (p.push k u cmd).2.cmdQueue.held) : pair ∈ u.cmdQueue.held ∨ pair.reader = some k := by
  unfold push Upstream.poolPushRequest at h
  split at h
  · rcases u.pushRequest_cases p.identity cmd k with ⟨he, _⟩ | ⟨q, he, _, hq⟩
    · rw [he] at h
      exact Or.inl h
    · rw [he] at h
      have h : pair ∈ q.held := h
      rw [hq, List.mem_append, List.mem_singleton] at h
      exact h.imp_right fun e => by rw [e]
  · exact Or.inl h

/-- A read of the session's connection: the session stays on it, and every entry is an
    old one or the session's own. -/
structure Reads (p : Proxy) (k : Nat) (c : Peer (Upstream Nat)) : Prop where
  own : c.session.clientConn = k
  entries : ∀ pair ∈ c.upstream.cmdQueue.held, pair ∈ p.upstream.cmdQueue.held ∨ pair.reader = some k

theorem reads_push {c : Peer (Upstream Nat)} (h : Reads p k c) : Reads p k (c.pushRequest (p.push k)).2 where
  own := h.own
  entries pair hp := by
    rcases push_reader p k c.upstream c.session.currentCmd hp with hp | hp
    · exact h.entries pair hp
    · exact Or.inr hp

theorem reads_refused {c : Peer (Upstream Nat)} (e : Error) (h : Reads p k c) :
    Reads p k (c.refused e).2 := by
  unfold Peer.refused
  split <;> exact ⟨h.own, h.entries⟩

theorem reads_round (beyond : Bytes) : Peer.Round (p.push k) beyond (Reads p k) (fun _ => Reads p k) where
  drained _ h _ := h
  waits c h _ _ := ⟨h.own, h.entries⟩
  fails c e h _ _ _ _ := ⟨h.own, h.entries⟩
  refuses c e h _ _ _ _ := by
    have hparsed : Reads p k (c.parseRequest beyond).2 := ⟨h.own, h.entries⟩
    exact reads_refused e (reads_push hparsed)
  accepts c h _ _ _ := by
    have hparsed : Reads p k (c.parseRequest beyond).2 := ⟨h.own, h.entries⟩
    exact ⟨h.own, (reads_push hparsed).entries⟩

theorem reads_onReadable {c : Peer (Upstream Nat)} (hc : c.session.parser.AtRest) (h : Reads p k c)
    (chunk : Bytes × Bytes) : Reads p k (c.onReadable (p.push k) chunk) := by
  have hfed : Reads p k { c with session := { c.session with parser := c.session.parser.feed chunk.1 } } :=
    ⟨h.own, h.entries⟩
  refine Peer.onClientRead_rule (reads_round chunk.2) (hc.feed chunk.1) (fun _ => hfed) ?_ ?_
  · intro e _ _ _
    exact reads_refused e (reads_push hfed)
  · intro _ _
    exact ⟨h.own, (reads_push hfed).entries⟩

theorem inv_read (h : Inv p) (k : Nat) (chunk : Bytes × Bytes) : Inv (p.onClientRead k chunk) := by
  unfold onClientRead
  split
  · rename_i s c hs hc
    obtain ⟨hown, hrest⟩ := h.own k s hs
    have hr : Reads p k ((p.peer s c).onReadable (p.push k) chunk) :=
      reads_onReadable hrest ⟨hown, fun _ hp => Or.inl hp⟩ chunk
    have hrest' : ((p.peer s c).onReadable (p.push k) chunk).session.parser.AtRest :=
      Peer.onReadable_atRest hrest chunk
    refine ⟨?_, ?_, ?_, h.safe⟩
    · show (p.sessions.set _ _).length = (p.pool.set _ _).length
      rw [List.length_set, List.length_set]
      exact h.paired
    · intro j t ht
      have ht : (p.sessions.set k _)[j]? = some t := ht
      rw [List.getElem?_set] at ht
      split at ht
      · rename_i e
        split at ht
        · obtain rfl := Option.some.inj ht
          exact ⟨hr.own.trans e, hrest'⟩
        · cases ht
      · exact h.own j t ht
    · intro pair hp j hj
      refine live_set rfl ?_
      rcases hr.entries pair hp with hp | hp
      · exact h.queued pair hp j hj
      · obtain rfl := Option.some.inj (hp.symm.trans hj)
        exact ⟨c, hc⟩
  · exact h

/-! ## Replies -/

/-- Every call is for an entry that was in the queue. -/
theorem reader_queued (H : Nat → Prop) (identity : Nat → Nat) (s : Relay Nat)
    (hq : ∀ pair ∈ s.upstream.cmdQueue.held, ∀ k, pair.reader = some k → H k)
    (hw : ∀ w ∈ s.writes, H w.1) (chunk : Bytes × Bytes) :
    (∀ pair ∈ (s.onReadable identity chunk).upstream.cmdQueue.held, ∀ k, pair.reader = some k → H k) ∧
      ∀ w ∈ (s.onReadable identity chunk).writes, H w.1 := by
  let I : Relay Nat → Prop := fun s =>
    (∀ pair ∈ s.upstream.cmdQueue.held, ∀ k, pair.reader = some k → H k) ∧ ∀ w ∈ s.writes, H w.1
  refine Relay.onServerRead_rule (I := I) (Q := I)
    ⟨fun _ h _ => h, fun _ h _ _ => h, fun _ h _ _ _ => h, ?_⟩ ⟨hq, hw⟩
  intro s pair q h _ _ hheld
  refine ⟨fun pair' hp => h.1 pair' ?_, ?_⟩
  · rw [hheld]
    exact List.mem_cons_of_mem _ hp
  · intro w hw
    have hw : w ∈ s.writes ++ Relay.callFor identity pair
      (s.parseResponse chunk.2).2.upstream.respBuffer := hw
    rcases List.mem_append.mp hw with hw | hw
    · exact h.2 w hw
    · unfold Relay.callFor at hw
      split at hw
      · rename_i k hk
        split at hw
        · rw [List.mem_singleton.mp hw]
          exact h.1 pair (by rw [hheld]; exact List.mem_cons_self) k hk
        · cases hw
      · cases hw

theorem inv_serve (h : Inv p) (hk : p.Live k) (bytes : Bytes) :
    Inv (p.onServerWrite k bytes) ∧ ∀ j, p.Live j → (p.onServerWrite k bytes).Live j := by
  obtain ⟨c, hc⟩ := hk
  have hlt := live_lt ⟨c, hc⟩
  have hs : p.sessions[k]? = some (p.sessions.get ⟨k, h.paired ▸ hlt⟩) := List.getElem?_eq_getElem _
  have hconn : p.clientConn k = some c := (clientConn_eq h hlt).trans hc
  have hpool : ∃ d, (p.onServerWrite k bytes).pool = p.pool.set k (some d) := by
    unfold onServerWrite
    rw [hs, hconn]
    show ∃ d, (if c.connected then _ else _) = _
    rw [(h.own k _ hs).1]
    split
    · exact ⟨_, rfl⟩
    · obtain ⟨_, hget⟩ := List.getElem?_eq_some_iff.mp (connection_eq.mp hc)
      exact ⟨c, by rw [← hget, List.set_getElem_self]⟩
  obtain ⟨d, hd⟩ := hpool
  refine ⟨⟨?_, h.own, fun pair hp j hj => live_set hd (h.queued pair hp j hj), ?_⟩,
    fun j hj => live_set hd hj⟩
  · rw [hd, List.length_set]
    exact h.paired
  · intro x hx
    rcases List.mem_append.mp hx with hx | hx
    · exact h.safe x hx
    · rw [List.mem_singleton.mp hx]
      show (p.clientConn k).isSome = true
      rw [hconn]
      rfl

theorem inv_serves (writes : List (Nat × Bytes)) : ∀ p : Proxy, Inv p → (∀ w ∈ writes, p.Live w.1) →
    Inv (writes.foldl (fun p w => p.onServerWrite w.1 w.2) p) := by
  induction writes with
  | nil => intro p h _; exact h
  | cons w writes ih =>
    intro p h hw
    obtain ⟨h', hlive⟩ := inv_serve h (hw w List.mem_cons_self) w.2
    exact ih _ h' fun w' hw' => hlive _ (hw w' (List.mem_cons_of_mem _ hw'))

theorem inv_serverRead (h : Inv p) (chunk : Bytes × Bytes) : Inv (p.onServerRead chunk) := by
  obtain ⟨hq, hw⟩ := reader_queued p.Live p.identity ⟨p.upstream, []⟩ h.queued (fun w hw => by cases hw) chunk
  exact inv_serves _ _ ⟨h.paired, h.own, hq, h.safe⟩ hw

/-! ## Over a run -/

theorem inv_run (events : List Event) (p : Proxy) (h : Inv p) (hs : p.Each Settled events) :
    Inv (p.run events) := by
  refine Runs.each_run ?_ events p h hs
  intro p e h hs
  cases e with
  | accept => exact inv_accept h
  | read k chunk beyond => exact inv_read h k (chunk, beyond)
  | write k w => exact inv_write h hs
  | close k => exact inv_remove h hs
  | serverRead chunk beyond => exact inv_serverRead h (chunk, beyond)
  | serverWrite w => exact ⟨h.paired, h.own, h.queued, h.safe⟩

/-- Over every run that removes no connection while a command of its session is in the
    queue: every reply is delivered through a connection of the pool. -/
theorem live_served (n : Nat) (h : 0 < n) (events : List Event) (hs : (start n h).Each Settled events) :
    ((start n h).run events).Safe := (inv_run events _ (inv_start n h) hs).safe

/-- `PING` of one client and `GET k` of another; the first leaves with its reply. -/
def settledEvents : List Event :=
  [.accept, .accept, .read 0 [42, 49, 13, 10, 36, 52, 13, 10, 80, 73, 78, 71, 13, 10] [],
    .read 1 [42, 50, 13, 10, 36, 51, 13, 10, 71, 69, 84, 13, 10, 36, 49, 13, 10, 107, 13, 10] [],
    .serverRead [43, 80, 79, 78, 71, 13, 10] [], .close 0, .serverRead [36, 49, 13, 10, 97, 13, 10] []]

theorem live_served_two :
    (start 3 (by decide)).Each Settled settledEvents ∧
    ((start 3 (by decide)).run settledEvents).served =
      [⟨0, [43, 80, 79, 78, 71, 13, 10], true⟩, ⟨1, [36, 49, 13, 10, 97, 13, 10], true⟩] ∧
    ((start 3 (by decide)).run settledEvents).Safe := by
  have hs : (start 3 (by decide)).Each Settled settledEvents := by
    refine ⟨trivial, trivial, trivial, trivial, trivial, ?_, trivial, trivial⟩
    show ¬ Waits _ 0
    decide
  exact ⟨hs, by decide, live_served 3 (by decide) settledEvents hs⟩

/-- The client leaves between its `PING` and the reply. -/
def leavingEvents : List Event :=
  [.accept, .read 0 [42, 49, 13, 10, 36, 52, 13, 10, 80, 73, 78, 71, 13, 10] [], .close 0,
    .serverRead [43, 80, 79, 78, 71, 13, 10] []]

theorem served_removed :
    ((start 3 (by decide)).run leavingEvents).served = [⟨0, [43, 80, 79, 78, 71, 13, 10], false⟩] ∧
    ¬ ((start 3 (by decide)).run leavingEvents).Safe := by
  have hserved : ((start 3 (by decide)).run leavingEvents).served =
    [⟨0, [43, 80, 79, 78, 71, 13, 10], false⟩] := by decide
  refine ⟨hserved, fun h => ?_⟩
  have hlive := h _ (by rw [hserved]; exact List.mem_cons_self)
  exact absurd hlive (by decide)

end RedisProxy.System.Proxy
