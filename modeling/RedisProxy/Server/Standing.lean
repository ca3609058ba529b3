/-
  RedisProxy.Server.Standing — where the relay stands when something beside it changes.

  `Server.Routing` follows one log of calls, one identity for each reader and one list of
  replies. In the proxy a read starts a new log, accepting a client gives a new reader an
  identity, and the server makes its replies one after the other.

  Proved: the position is the same where the readers in the order keep their identity
  (`stands_identity`) and the replies so far are the same (`stands_reply`); `onReadable_writes`,
  a read adds its calls to any log; `took_pushes`, what a row of pushes does while the ring
  has room for it.
-/

import RedisProxy.Server.Routing
import RedisProxy.Wire.Request

namespace RedisProxy.Server

open Lib Lib.Decimal Lib.Pieces Wire Net

variable {R : Type} {identity : R → Nat} {beyond : Bytes}

/-! ## The log of calls -/

namespace Relay

theorem readLoop_writes (n : Nat) : ∀ (u : Upstream R) (log : List (R × Bytes)),
    readLoop identity beyond n ⟨u, log⟩ =
      ((readLoop identity beyond n ⟨u, []⟩).1,
        ⟨(readLoop identity beyond n ⟨u, []⟩).2.upstream, log ++ (readLoop identity beyond n ⟨u, []⟩).2.writes⟩) := by
  induction n with
  | zero => intro u log; simp [readLoop]
  | succ n ih =>
    intro u log
    simp only [readLoop, parseResponse]
    split
    · simp
    · rcases hp : u.parser.parseResponse beyond u.respBuffer with ⟨e, P, resp⟩
      cases e with
      | ok =>
        dsimp only
        rcases hq : u.cmdQueue.pop with e | ⟨pair, q⟩
        · simp
        · dsimp only [answer]
          rw [ih _ (log ++ _), ih _ ([] ++ _)]
          simp
      | _ => simp

theorem onReadable_writes (u : Upstream R) (log : List (R × Bytes)) (chunk : Bytes × Bytes) :
    (⟨u, log⟩ : Relay R).onReadable identity chunk =
      ⟨((⟨u, []⟩ : Relay R).onReadable identity chunk).upstream,
        log ++ ((⟨u, []⟩ : Relay R).onReadable identity chunk).writes⟩ := by
  simp only [onReadable, onServerRead]
  rw [readLoop_writes]

/-- What a read of replies leaves as it is. -/
structure Kept (u u' : Upstream R) : Prop where
  auth : u'.auth = u.auth
  conn : u'.serverConn = u.serverConn
  holder : u'.cmdQueue.holder.length = u.cmdQueue.holder.length

theorem readLoop_kept (n : Nat) : ∀ s : Relay R, Kept s.upstream (readLoop identity beyond n s).2.upstream := by
  induction n with
  | zero => intro s; exact ⟨rfl, rfl, rfl⟩
  | succ n ih =>
    intro s
    simp only [readLoop, parseResponse]
    split
    · exact ⟨rfl, rfl, rfl⟩
    · rcases s.upstream.parser.parseResponse beyond s.upstream.respBuffer with ⟨e, P, resp⟩
      cases e with
      | ok =>
        dsimp only
        rcases hq : s.upstream.cmdQueue.pop with e | ⟨pair, q⟩
        · exact ⟨rfl, rfl, rfl⟩
        · have hq : q.holder = s.upstream.cmdQueue.holder := by
            unfold Recycle.pop at hq
            split at hq
            · cases hq
            · rw [← (Prod.mk.inj (Except.ok.inj hq)).2]
          have hrest := ih ({ s with upstream := { s.upstream with parser := P, respBuffer := resp } }.answer
            identity pair q)
          exact ⟨hrest.auth, hrest.conn, hrest.holder.trans (congrArg _ hq)⟩
      | _ => exact ⟨rfl, rfl, rfl⟩

theorem onReadable_kept (s : Relay R) (chunk : Bytes × Bytes) :
    Kept s.upstream (s.onReadable identity chunk).upstream := by
  have h : Kept _ (s.onReadable identity chunk).upstream := readLoop_kept s.upstream.cmdQueue.holder.length
    { s with upstream := { s.upstream with parser := s.upstream.parser.feed chunk.1 } }
  exact ⟨h.auth, h.conn, h.holder⟩

end Relay

/-! ## Identities and replies -/

namespace Exchange

variable {reply reply' : Nat → Reply} {accepted : List (Cmd × R)} {received : Bytes} {conn : Connection}
  {s : Relay R}

theorem stands_identity {identity' : R → Nat} (h : Stands identity reply accepted received conn s)
    (hsame : ∀ a ∈ accepted, identity' a.2 = identity a.2) : Stands identity' reply accepted received conn s := by
  obtain ⟨D, P, p, hat⟩ := h
  refine ⟨D, P, p, { hat with queue := ?_ }⟩
  rw [hat.queue]
  refine List.map_congr_left fun a ha => ?_
  rw [hsame a (List.mem_of_mem_drop ha)]

theorem stream_lt {j k : Nat} (h : j < k) : (stream reply j).length < (stream reply k).length := by
  have hstep : (stream reply (j + 1)).length ≤ (stream reply k).length := (stream_le (Nat.succ_le_of_lt h)).length_le
  have hpos := List.length_pos_iff.mpr (reply j).encode_ne_nil
  rw [stream_succ, List.length_append] at hstep
  omega

theorem stream_congr {k : Nat} (h : ∀ i < k, reply' i = reply i) : stream reply' k = stream reply k := by
  refine List.flatMap_congr fun i hi => ?_
  rw [h i (List.mem_range.mp hi)]

theorem calls_congr {k : Nat} (h : ∀ i < k, reply' i = reply i) :
    calls reply' (accepted.take k) = calls reply (accepted.take k) := by
  refine List.map_congr_left fun a ha => ?_
  have hi : a.2 < (accepted.take k).length := by
    obtain ⟨_, hlt, _⟩ := List.mem_zipIdx ha
    omega
  rw [List.length_take] at hi
  rw [h a.2 (by omega)]

/-- Nothing has been received beyond the `k`-th reply. -/
theorem stands_reply {k : Nat} (h : Stands identity reply accepted received conn s)
    (hsame : ∀ i < k, reply' i = reply i) (hrec : received <+: stream reply k) :
    Stands identity reply' accepted received conn s := by
  obtain ⟨D, P, p, hat⟩ := h
  have hreceived := hat.bytes
  by_cases hD : D < k
  · have hsame' : ∀ i < D, reply' i = reply i := fun i hi => hsame i (Nat.lt_trans hi hD)
    refine ⟨D, P, p, { hat with received := ?_, inside := ?_, halfway := ?_, writes := ?_ }⟩
    · rw [stream_congr hsame']; exact hat.received
    · rw [hsame D hD]; exact hat.inside
    · rw [hsame D hD]; exact hat.halfway
    · rw [calls_congr hsame']; exact hat.writes
  · -- the relay is at the end of what there is
    have hlen := hrec.length_le
    have hle : stream reply k <+: stream reply D := stream_le (Nat.le_of_not_lt hD)
    obtain ⟨more, hmore⟩ := hle
    have hmore' := congrArg List.length hmore
    rw [hreceived, List.length_append] at hlen
    rw [List.length_append] at hmore'
    obtain rfl : p = [] := List.eq_nil_of_length_eq_zero (by omega)
    obtain rfl : more = [] := List.eq_nil_of_length_eq_zero (by omega)
    have hDk : D = k := by
      by_contra hne
      have hlt : (stream reply k).length < (stream reply D).length := stream_lt (by omega)
      rw [← hmore, List.append_nil] at hlt
      exact Nat.lt_irrefl _ hlt
    subst hDk
    obtain ⟨hP, hresp⟩ := halfway_nil hat.halfway
    refine ⟨D, P, [], { hat with received := ?_, inside := ?_, halfway := ?_, writes := ?_ }⟩
    · rw [stream_congr hsame]; exact hat.received
    · exact proper_nil (reply' D).encode_ne_nil
    · rw [hP, hresp]; exact .start
    · rw [calls_congr hsame]; exact hat.writes

end Exchange

/-! ## A row of pushes -/

namespace Upstream

variable {u u' : Upstream R} {r : R}

/-- The entries and the bytes of `cmds` are behind the others, and nothing else has changed. -/
structure Took (identity : R → Nat) (r : R) (u : Upstream R) (cmds : List Cmd) (u' : Upstream R) : Prop where
  rest : u' = { u with cmdQueue := u'.cmdQueue, serverConn := u'.serverConn }
  queue : u'.cmdQueue.held = u.cmdQueue.held ++ cmds.map fun _ => ⟨identity r, some r⟩
  holder : u'.cmdQueue.holder.length = u.cmdQueue.holder.length
  conn : u'.serverConn = { u.serverConn with
    sendBuffer := u.serverConn.sendBuffer ++ cmds.flatMap encode
    writable := u.serverConn.writable || !cmds.isEmpty }

theorem took_push (hopen : u.isAcceptable = true) (hroom : u.cmdQueue.held.length + 1 < u.cmdQueue.holder.length)
    (cmd : Cmd) :
    (u.poolPushRequest identity cmd r).1 = .ok ∧ Took identity r u [cmd] (u.poolPushRequest identity cmd r).2 := by
  have hconn : ¬ u.serverConn.connected = false := by
    simp only [isAcceptable, Bool.and_eq_true] at hopen
    simp [hopen.1]
  rcases u.cmdQueue.push_held ⟨identity r, some r⟩ with ⟨hf, -⟩ | ⟨-, q, hq, hheld, hlen⟩
  · omega
  · rw [poolPushRequest, if_pos hopen, pushRequest, if_neg hconn, hq]
    refine ⟨rfl, rfl, hheld, hlen, ?_⟩
    simp [Connection.writeToBuffer, Connection.setWritable, formatRESP2_eq]

theorem Took.trans {u'' : Upstream R} {cmds cmds' : List Cmd} (h : Took identity r u cmds u')
    (h' : Took identity r u' cmds' u'') : Took identity r u (cmds ++ cmds') u'' := by
  refine ⟨?_, ?_, h'.holder.trans h.holder, ?_⟩
  · rw [h'.rest, h.rest]
  · rw [h'.queue, h.queue, List.map_append, List.append_assoc]
  · rw [h'.conn, h.conn]
    simp only [List.flatMap_append, List.append_assoc]
    cases cmds <;> simp

theorem Took.acceptable {cmds : List Cmd} (h : Took identity r u cmds u') : u'.isAcceptable = u.isAcceptable := by
  have hauth : u'.auth = u.auth := by rw [h.rest]
  have hconn : u'.serverConn.connected = u.serverConn.connected := by rw [h.conn]
  rw [isAcceptable, isAcceptable, hauth, hconn]

/-- While the ring has room for all of them none is refused. -/
theorem took_pushes (identity : R → Nat) (r : R) (cmds : List Cmd) : ∀ u : Upstream R, u.isAcceptable = true →
    u.cmdQueue.held.length + cmds.length < u.cmdQueue.holder.length →
      Runs.Each (fun u cmd => (u.poolPushRequest identity cmd r).2)
        (fun u cmd => (u.poolPushRequest identity cmd r).1 = .ok) u cmds ∧
      Took identity r u cmds (cmds.foldl (fun u cmd => (u.poolPushRequest identity cmd r).2) u) := by
  induction cmds with
  | nil =>
    intro u _ _
    exact ⟨trivial, rfl, (List.append_nil _).symm, rfl, by simp⟩
  | cons cmd cmds ih =>
    intro u hopen hroom
    rw [List.length_cons] at hroom
    have hone : (u.poolPushRequest identity cmd r).1 = .ok ∧
        Took identity r u [cmd] (u.poolPushRequest identity cmd r).2 :=
      took_push hopen (by omega) cmd
    obtain ⟨hok, htook⟩ := hone
    obtain ⟨hall, hrest⟩ := ih _ (htook.acceptable.trans hopen) (by
      rw [htook.holder, htook.queue, List.length_append, List.length_map, List.length_singleton]
      omega)
    exact ⟨⟨hok, hall⟩, htook.trans hrest⟩

/-- The entries of a row of pushes stand behind the others. -/
theorem stands_took {reply : Nat → Reply} {accepted : List (Cmd × R)} {received : Bytes} {log : List (R × Bytes)}
    {cmds : List Cmd} (h : Exchange.Stands identity reply accepted received u.serverConn ⟨u, log⟩)
    (htook : Took identity r u cmds u') :
    Exchange.Stands identity reply (accepted ++ cmds.map fun cmd => (cmd, r)) received u'.serverConn ⟨u', log⟩ := by
  obtain ⟨D, P, p, hat⟩ := h
  have hparser : u'.parser = u.parser := by rw [htook.rest]
  have hresp : u'.respBuffer = u.respBuffer := by rw [htook.rest]
  refine ⟨D, P, p, ⟨?_, hat.received, hat.inside, hparser.trans hat.parser, ?_, ?_, ?_, rfl⟩⟩
  · rw [List.length_append]
    exact Nat.le_add_right_of_le hat.count
  · show Halfway (reply D) p P u'.respBuffer
    rw [hresp]
    exact hat.halfway
  · have hqueue : u.cmdQueue.held = (accepted.drop D).map fun a => ⟨identity a.2, some a.2⟩ := hat.queue
    show u'.cmdQueue.held = _
    rw [htook.queue, hqueue, List.drop_append_of_le_length hat.count, List.map_append, List.map_map]
    rfl
  · rw [List.take_append_of_le_length hat.count]
    exact hat.writes

end Upstream

end RedisProxy.Server
