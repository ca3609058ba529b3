/-
  RedisProxy.System.Drain — nothing stays on its way.

  A step that moves bytes lowers how many there are to go: first those of commands, which
  are read, written to the server and executed, then those of replies, which are read and
  written to the clients (`todo`, `owed`). An executed command adds any number of the
  second kind and takes one of the first away.

  Such a step is there while anything is on its way: the events that move bytes are watched
  for (`Watched`), as long as no write of pending bytes fails, and the ring takes a command
  when all the ones before are answered. The exception are replies that wait for a read that
  never comes, the upstream's input being full (`Stalled`), which `Clears` excludes: no read
  fills it where the reply parser loses its way (`Server.Intake`).

  Proved: `drains`, after every calm run whose writes do not fail: the steps that move bytes
  come to an end, whichever are taken, and where there is none left every connected client
  has the answers to all its commands, or replies are stalled, which they are not if every
  read clears. The ring needs two slots, a reply fewer than 2^31 bytes, and the clients'
  inputs room for their longest command.
-/

import RedisProxy.Lib.Ending
import RedisProxy.Lib.Totals
import RedisProxy.Net.Flush
import RedisProxy.System.Service

namespace RedisProxy.System.Network

open Lib Lib.Decimal Lib.Pieces Lib.Shares Lib.Ending Wire Net Client Server Proxy

variable {σ : Type}

/-! ## What is watched for -/

/-- `EPOLLIN` is set, and `EPOLLOUT` where there is something to write. -/
def Wanted (c : Connection) : Prop := c.readable = true ∧ (c.sendBuffer ≠ [] → c.writable = true)

/-- Whether the upstream is watched for input `inflow` says. -/
structure Watched (r : Nat) (n : Network σ) : Prop where
  clients : ∀ (k : Nat) conn, n.proxy.connection k = some conn → Wanted conn
  server : Wanted n.proxy.upstream.serverConn
  ring : n.proxy.upstream.cmdQueue.holder.length = r
  small : ∀ x ∈ n.replies, x.encode.length < 2 ^ 31

/-- No write of pending bytes fails. -/
def Lasting (n : Network σ) : Event → Prop
  | .write k (.fails _) => n.pending k = []
  | .serverWrite (.fails _) => n.proxy.upstream.serverConn.sendBuffer = []
  | _ => True

variable {serve : Serve σ} {s : σ} {n : Network σ} {k r : Nat} {c : Connection} {w : WriteResult}

theorem wanted_opened : Wanted .opened := ⟨rfl, fun h => absurd rfl h⟩

theorem wanted_onWritable (hclosing : c.closing = false) (hopen : (c.onWritable w).2.connected = true)
    (h : Wanted c) (hlast : ∀ errno, w = .fails errno → c.sendBuffer = []) : Wanted (c.onWritable w).2 := by
  refine ⟨(Connection.onWritable_open (onWritable_not_closed hclosing w)).2.trans h.1, ?_⟩
  by_cases h0 : c.sendBuffer = []
  · rw [Connection.onWritable, if_pos h0]
    exact fun hne => absurd h0 hne
  · exact Connection.onWritable_writable (fun errno he => h0 (hlast errno he)) h0 (h.2 h0) hopen

theorem wanted_deliver (bs : List Bytes) : ∀ c : Connection, Wanted c → Wanted (deliver c bs) := by
  induction bs with
  | nil => intro c h; exact h
  | cons b bs ih => intro c _; exact ih _ ⟨rfl, fun _ => rfl⟩

theorem wanted_took {identity : Nat → Nat} {u u' : Upstream Nat} {cmds : List Cmd}
    (h : Upstream.Took identity k u cmds u') (hu : Wanted u.serverConn) : Wanted u'.serverConn := by
  rw [h.conn]
  refine ⟨hu.1, fun hne => ?_⟩
  cases cmds with
  | nil =>
    rw [List.flatMap_nil, List.append_nil] at hne
    show (u.serverConn.writable || false) = true
    rw [hu.2 hne]
    rfl
  | cons cmd cmds => exact Bool.or_true _

theorem watched_step (hsmall : ∀ s cmd, (serve s cmd).1.encode.length < 2 ^ 31) (h : Whole serve s n)
    (hw : Watched r n) (e : Event) (he : n.Calm e) (hlast : n.Lasting e) : Watched r (n.step serve e) := by
  cases e with
  | connect =>
    refine ⟨fun j conn hc => ?_, hw.server, hw.ring, hw.small⟩
    rcases connection_accept hc with hc | ⟨-, rfl⟩
    · exact hw.clients j conn hc
    · exact wanted_opened
  | send j cmd => exact ⟨hw.clients, hw.server, hw.ring, hw.small⟩
  | read j m beyond =>
    obtain ⟨new, rest, q, hclean⟩ := he
    obtain ⟨hfed, -⟩ := fed h hclean beyond
    refine ⟨fun i conn hc => hw.clients i conn ?_, wanted_took hfed.upstream hw.server,
      hfed.upstream.holder.trans hw.ring, hw.small⟩
    rw [Proxy.connection, ← hfed.pool]
    exact hc
  | write j w =>
    obtain ⟨conn, hl, hpos⟩ := he
    obtain ⟨hopen, hclosing⟩ := h.senders.opened j conn hl
    have hproxy := onClientWrite_open hl hclosing w
    have hupstream : (n.step serve (.write j w)).proxy.upstream = n.proxy.upstream := by
      show (n.proxy.onClientWrite j w).upstream = _
      rw [hproxy]
    refine ⟨fun i d hd => ?_, hupstream ▸ hw.server, hupstream ▸ hw.ring, hw.small⟩
    have hd : (n.proxy.onClientWrite j w).connection i = some d := hd
    rw [hproxy, connection_set ⟨conn, hl⟩] at hd
    split at hd
    · obtain rfl := Option.some.inj hd
      refine wanted_onWritable hclosing ((Connection.onWritable_keeps hclosing hpos).2.1.trans hopen)
        (hw.clients j conn hl) fun errno he => ?_
      subst he
      have hlast : n.pending j = [] := hlast
      rwa [Network.pending, hl] at hlast
    · exact hw.clients i d hd
  | leave j => exact ⟨fun i conn hc => hw.clients i conn (connection_close hc), hw.server, hw.ring, hw.small⟩
  | serverWrite w =>
    obtain ⟨hopen, hclosing⟩ := h.upward.opened
    have hconnected : n.proxy.upstream.serverConn.connected = true := by
      rw [Upstream.isAcceptable, Bool.and_eq_true] at hopen
      exact hopen.1
    refine ⟨hw.clients, ?_, hw.ring, hw.small⟩
    refine wanted_onWritable hclosing ((Connection.onWritable_keeps hclosing he).2.1.trans hconnected) hw.server
      fun errno hf => ?_
    subst hf
    exact hlast
  | execute cmd =>
    unfold step
    dsimp only
    split
    · refine ⟨hw.clients, hw.server, hw.ring, fun x hx => ?_⟩
      rcases List.mem_append.mp hx with hx | hx
      · exact hw.small x hx
      · rw [List.mem_singleton.mp hx]
        exact hsmall n.server cmd
    · exact hw
  | serverRead m beyond =>
    have hhanded := handed_read h.base (fun j c hc => (h.senders.opened j c hc).1) (n.arriving m, beyond)
    have hkept : Relay.Kept n.proxy.upstream
        ((⟨n.proxy.upstream, []⟩ : Relay Nat).onReadable n.proxy.identity (n.arriving m, beyond)).upstream :=
      Relay.onReadable_kept ⟨n.proxy.upstream, []⟩ _
    have hupstream : (n.step serve (.serverRead m beyond)).proxy.upstream = _ := hhanded.upstream
    refine ⟨fun j conn hc => ?_, ?_, ?_, hw.small⟩
    · have hc : (n.proxy.onServerRead (n.arriving m, beyond)).connection j = some conn := hc
      rw [hhanded.connection] at hc
      obtain ⟨d, hd, rfl⟩ := Option.map_eq_some_iff.mp hc
      exact wanted_deliver _ d (hw.clients j d hd)
    · rw [hupstream, hkept.conn]
      exact hw.server
    · rw [hupstream]
      exact hkept.holder.trans hw.ring

theorem watched_start (r : Nat) (hr : 0 < r) (s : σ) (initSize minSize : Nat) :
    Watched r (start r hr s initSize minSize) where
  clients k conn hc := by cases hc
  server := wanted_opened
  ring := List.length_replicate
  small x hx := by cases hx

/-! ## The room for replies -/

/-- The upstream is watched for input, and there is room for it. -/
structure Roomy (n : Network σ) : Prop where
  readable : n.inflow.readable = true
  free : 0 < n.inflow.free
  minSize : 0 < n.inflow.minSize

/-- Replies wait, and nothing reads them. -/
def Stalled (n : Network σ) : Prop := n.toProxy ≠ [] ∧ (n.inflow.readable = true → n.inflow.free = 0)

/-- No read that fills the upstream's input ends at an edge of a reply. -/
def Clears (n : Network σ) : Event → Prop
  | .serverRead m _ => (n.arriving m).length = n.inflow.free → ∀ got,
      got ++ n.toProxy = Exchange.stream n.reply n.replies.length → ¬ Exchange.AtEdge n.reply (got ++ n.arriving m)
  | _ => True

theorem Roomy.not_stalled (h : Roomy n) : ¬ Stalled n := fun hs => Nat.ne_of_gt h.free (hs.2 h.readable)

theorem roomy_start (r : Nat) (hr : 0 < r) (s : σ) {initSize minSize : Nat} (hinit : 0 < initSize)
    (hmin : 0 < minSize) : Roomy (start r hr s initSize minSize) := ⟨rfl, hinit, hmin⟩

theorem roomy_step (h : Whole serve s n) (hroom : Roomy n) (e : Event) (he : n.Calm e) (hclear : n.Clears e) :
    Roomy (n.step serve e) := by
  cases e with
  | execute cmd =>
    unfold step
    dsimp only
    split
    · exact ⟨hroom.readable, hroom.free, hroom.minSize⟩
    · exact hroom
  | serverRead m beyond =>
    obtain ⟨got, hreads⟩ := h.downward
    obtain ⟨D, P, p, hat⟩ := hreads.stands
    have hunread : (n.proxy.upstream.parser.inputb ++ n.arriving m).length < 2 ^ 31 := by
      rw [List.length_append]
      exact he
    have herr := Exchange.onServerRead_error h.upward.replies_steady hat (arrived h.upward hreads m) hunread beyond
    rw [Relay.onServerRead, Relay.readLoop_writes] at herr
    obtain ⟨hfree, hreadable⟩ : 0 < (n.step serve (.serverRead m beyond)).inflow.free ∧
        (n.step serve (.serverRead m beyond)).inflow.readable = n.inflow.readable := by
      refine Inflow.handled_room hroom.minSize hroom.free (herr.imp_right fun hedge => ?_)
      refine Nat.lt_of_le_of_ne (arriving_le n m) fun hfull => ?_
      exact hclear hfull got hreads.bytes hedge.2
    refine ⟨hreadable.trans hroom.readable, hfree, ?_⟩
    show 0 < (n.inflow.onReadable n.proxy.identity n.proxy.upstream (n.arriving m, beyond)).minSize
    rw [Inflow.onReadable_minSize]
    exact hroom.minSize
  | _ => exact ⟨hroom.readable, hroom.free, hroom.minSize⟩

/-! ## There is a step -/

/-- The event moves bytes, and is watched for. -/
def Moves (n : Network σ) : Event → Prop
  | .read k m _ => (∃ conn, n.proxy.connection k = some conn ∧ conn.readable = true) ∧ n.incoming k m ≠ []
  | .write k w => (∃ conn, n.proxy.connection k = some conn ∧ conn.writable = true) ∧ 0 < w.taken
  | .serverWrite w => n.proxy.upstream.serverConn.writable = true ∧ 0 < w.taken
  | .execute cmd => cmd.formatRESP2 [] <+: n.toServer
  | .serverRead m _ => n.inflow.readable = true ∧ n.arriving m ≠ []
  | _ => False

def Productive (n : Network σ) (e : Event) : Prop := n.Calm e ∧ n.Moves e

/-- A client's read takes no more than `room` bytes. -/
def Within (room : Nat) : Event → Prop
  | .read _ m _ => m ≤ room
  | _ => True

/-- No client has sent a longer command. -/
def Short (room : Nat) (n : Network σ) : Prop :=
  ∀ cmds ∈ n.clients.map (·.sent), ∀ cmd ∈ cmds, (cmd.formatRESP2 []).length ≤ room

theorem Moves.lasting {e : Event} (h : n.Moves e) : n.Lasting e := by
  cases e with
  | write k w =>
    cases w with
    | fails errno => exact absurd h.2 (Nat.lt_irrefl 0)
    | _ => trivial
  | serverWrite w =>
    cases w with
    | fails errno => exact absurd h.2 (Nat.lt_irrefl 0)
    | _ => trivial
  | _ => trivial

/-- A connection with output has a write of one byte. -/
theorem possible_one {c : Connection} (h : c.sendBuffer ≠ []) : c.Possible (.wrote 1) :=
  ⟨List.length_pos_iff.mpr h, show 1 < 2 ^ 31 by decide⟩

theorem goes_execute (h : Whole serve s n) (h1 : n.proxy.upstream.serverConn.sendBuffer = [])
    (h2 : n.toServer ≠ []) : ∃ cmd, n.Productive (.execute cmd) := by
  have hbytes := h.upward.bytes
  rw [h1, List.append_nil] at hbytes
  cases hdrop : n.order.drop n.replies.length with
  | nil =>
    rw [hdrop] at hbytes
    exact absurd hbytes.symm h2
  | cons a more =>
    rw [hdrop, List.flatMap_cons] at hbytes
    refine ⟨a.1, trivial, ?_⟩
    show a.1.formatRESP2 [] <+: n.toServer
    rw [formatRESP2_eq, List.nil_append, ← hbytes]
    exact List.prefix_append _ _

/-- The parser holds no more than what it has of one reply. -/
theorem halfway_unread {x : Reply} {p resp : Bytes} {P : CmdParser} (h : Halfway x p P resp) :
    P.inputb.length ≤ p.length := by
  cases h with
  | start => exact Nat.le_refl _
  | line => exact Nat.le_refl _
  | count => exact Nat.le_refl _
  | header => simp; omega
  | payload => simp; omega

theorem goes_serverRead (h : Whole serve s n) (hw : Watched r n) (h3 : n.toProxy ≠ []) (hstall : ¬ Stalled n) :
    n.Productive (.serverRead 1 []) := by
  obtain ⟨hreadable, hfree⟩ := Classical.not_imp.mp fun h => hstall ⟨h3, h⟩
  obtain ⟨got, hreads⟩ := h.downward
  obtain ⟨D, P, p, hat⟩ := hreads.stands
  have hgot := hat.bytes
  have hD : D < n.replies.length := by
    refine Nat.lt_of_le_of_ne (Link.whole_ge hgot ⟨n.toProxy, hreads.bytes⟩) fun he => h3 ?_
    have hbytes := hreads.bytes
    rw [hgot, he, List.append_assoc] at hbytes
    exact (List.append_eq_nil_iff.mp (List.append_cancel_left (hbytes.trans (List.append_nil _).symm))).2
  have hlt := hat.inside.length_lt
  rw [reply_eq hD] at hlt
  have hsmall := hw.small _ (List.getElem_mem hD)
  have hinput : n.proxy.upstream.parser.inputb = P.inputb := by
    have hparser : n.proxy.upstream.parser = P.feed [] := hat.parser
    rw [hparser]
    exact List.append_nil _
  have hunread := halfway_unread hat.halfway
  refine ⟨?_, hreadable, ?_⟩
  · show n.proxy.upstream.parser.inputb.length + (n.arriving 1).length < 2 ^ 31
    have hone : (n.arriving 1).length ≤ 1 := (List.length_take_le _ _).trans (Nat.min_le_left _ _)
    rw [hinput]
    omega
  · intro h0
    rcases List.take_eq_nil_iff.mp h0 with h0 | h0
    · omega
    · exact h3 h0

theorem goes_write (hw : Watched r n) (h4 : n.pending k ≠ []) : n.Productive (.write k (.wrote 1)) := by
  unfold Network.pending at h4
  cases hl : n.proxy.connection k with
  | none =>
    rw [hl] at h4
    exact absurd rfl h4
  | some conn =>
    have h4 : conn.sendBuffer ≠ [] := by rwa [hl] at h4
    exact ⟨⟨conn, hl, possible_one h4⟩, ⟨conn, hl, (hw.clients k conn hl).2 h4⟩, Nat.one_pos⟩

/-- With nothing else on its way the queue is empty, and a command can be read whole. -/
theorem goes_read {room : Nat} (h : Whole serve s n) (hw : Watched r n) (hs : Short room n) (hr : 1 < r)
    (h1 : n.proxy.upstream.serverConn.sendBuffer = []) (h2 : n.toServer = []) (h3 : n.toProxy = [])
    {c : Remote} (hlive : n.proxy.Live k) (hc : n.clients[k]? = some c) (h5 : c.outgoing ≠ []) :
    ∃ m, n.Productive (.read k m []) ∧ m ≤ room := by
  obtain ⟨t, ht, -⟩ := session_of_live h.base hlive
  obtain ⟨-, rest, p, hsent, hbytes, hsits⟩ := h.senders.unread k c t hc ht hlive
  cases rest with
  | nil => exact absurd (List.append_eq_nil_iff.mp hbytes.symm).2 h5
  | cons argv rest =>
    have hlt := sits_lt hsits
    have hdrop : c.outgoing.drop ((encode argv).length - p.length) = rest.flatMap encode := by
      have := congrArg (List.drop (encode argv).length) hbytes
      rw [List.flatMap_cons, List.drop_left, List.drop_append, List.drop_eq_nil_of_le (Nat.le_of_lt hlt)] at this
      exact this.symm
    have hheld : n.proxy.upstream.cmdQueue.held = [] := by
      obtain ⟨got, hreads⟩ := h.downward
      obtain ⟨D, P, q, hat⟩ := hreads.stands
      have hgot := hat.bytes
      have hall : n.replies.length ≤ D := by
        refine Link.whole_le hgot hat.inside ?_
        rw [← hreads.bytes, h3, List.append_nil]
      have hexecuted := all_executed h h1 h2
      have hqueue : n.proxy.upstream.cmdQueue.held = _ := hat.queue
      rw [hqueue, List.drop_of_length_le (by omega), List.map_nil]
    obtain ⟨conn, hl⟩ := hlive
    have hlen : (encode argv).length ≤ room := by
      have hmem : argv ∈ c.sent := by
        rw [hsent]
        exact List.mem_append_right _ List.mem_cons_self
      rw [← encode_eq]
      exact hs c.sent (List.mem_map_of_mem (List.mem_of_getElem? hc)) argv hmem
    refine ⟨(encode argv).length - p.length, ⟨⟨[argv], rest, [], ?_⟩, ⟨conn, hl, (hw.clients k conn hl).1⟩, ?_⟩,
      (Nat.sub_le _ _).trans hlen⟩
    · refine ⟨⟨c, hc, hsent, ?_⟩, ⟨conn, hl⟩, Or.inl rfl, ?_⟩
      · rw [encode_eq, hdrop]
        rfl
      · rw [hheld, hw.ring]
        exact hr
    · rw [incoming, hc]
      intro h0
      rcases List.take_eq_nil_iff.mp h0 with h0 | h0
      · omega
      · exact h5 h0

theorem goes {room : Nat} (h : Whole serve s n) (hw : Watched r n) (hs : Short room n) (hr : 1 < r) (hidle : ¬ Idle n)
    (hstall : ¬ Stalled n) : ∃ e, n.Productive e ∧ Within room e := by
  by_cases h1 : n.proxy.upstream.serverConn.sendBuffer = []
  · by_cases h2 : n.toServer = []
    · by_cases h3 : n.toProxy = []
      · by_cases h4 : ∃ k, n.pending k ≠ []
        · obtain ⟨k, h4⟩ := h4
          exact ⟨_, goes_write hw h4, trivial⟩
        · have h5 : ¬ ∀ (k : Nat) (c : Remote), n.proxy.Live k → n.clients[k]? = some c → c.outgoing = [] :=
            fun hall => hidle ⟨hall, h1, h2, h3, fun k => by_contra fun hk => h4 ⟨k, hk⟩⟩
          simp only [not_forall] at h5
          obtain ⟨k, c, hlive, hc, h5⟩ := h5
          obtain ⟨m, hm, hroom⟩ := goes_read h hw hs hr h1 h2 h3 hlive hc h5
          exact ⟨_, hm, hroom⟩
      · exact ⟨_, goes_serverRead h hw h3 hstall, trivial⟩
    · obtain ⟨cmd, hcmd⟩ := goes_execute h h1 h2
      exact ⟨_, hcmd, trivial⟩
  · exact ⟨.serverWrite (.wrote 1), ⟨possible_one h1, hw.server.2 h1, Nat.one_pos⟩, trivial⟩

/-! ## How much there is to go -/

/-- The bytes of the commands that have been sent. -/
def sentBytes (n : Network σ) : Nat := (n.clients.map fun c => (c.sent.flatMap encode).length).sum

/-- Those of the commands that have been executed. -/
def executed (n : Network σ) : Nat := ((n.order.take n.replies.length).flatMap fun a => encode a.1).length

/-- The bytes of commands: to be read, to be written to the server, to be executed. -/
def todo (n : Network σ) : Nat :=
  (n.clients.map (·.outgoing.length)).sum + (n.sentBytes - (n.executed + n.toServer.length)) +
    (n.sentBytes - n.executed)

/-- The bytes of replies: to be read, to be received. -/
def owed (n : Network σ) : Nat :=
  n.toProxy.length + ((n.replies.map (·.encode.length)).sum - (n.clients.map (·.received.length)).sum)

theorem written_le (h : Whole serve s n) :
    n.executed + n.toServer.length + n.proxy.upstream.serverConn.sendBuffer.length ≤ n.sentBytes := by
  have horder : (n.order.map fun a => (encode a.1).length).sum ≤ n.sentBytes := by
    have howners : ∀ a ∈ n.order, a.2 < n.clients.length := fun a ha => by
      rw [h.senders.paired]
      exact h.senders.owners a ha
    refine shares_le (f := fun cmd : Cmd => (encode cmd).length) howners fun k c hc => ?_
    rw [← List.length_flatMap]
    exact (List.IsPrefix.flatMap (h.senders.taken k c hc) encode).length_le
  have hsplit := congrArg List.length (List.take_append_drop n.replies.length n.order ▸
    List.flatMap_append : n.order.flatMap (fun a => encode a.1) = _)
  rw [List.length_append, h.upward.bytes, List.length_append, List.length_flatMap] at hsplit
  show ((n.order.take n.replies.length).flatMap fun a => encode a.1).length + _ + _ ≤ _
  omega

theorem received_le (h : Whole serve s n) :
    (n.clients.map (·.received.length)).sum ≤ (n.replies.map (·.encode.length)).sum := by
  have hreplies : n.direct.log.map (fun a => a.1.2) = n.replies := by
    rw [direct, List.map_map]
    exact List.map_snd_zip (by rw [List.length_take]; exact Nat.le_min.mpr ⟨Nat.le_refl _, h.upward.count⟩)
  have hlog : n.replies.map (·.encode.length) = n.direct.log.map fun a => a.1.2.encode.length := by
    rw [← hreplies, List.map_map]
    rfl
  rw [hlog]
  refine le_shares (f := fun a : Cmd × Reply => a.2.encode.length) fun k c hc => ?_
  rw [← List.length_flatMap]
  exact (received_log h hc).length_le

/-- What moves bytes sends no command. -/
theorem short_moved {room : Nat} {e : Event} (he : n.Moves e) (h : Short room n) : Short room (n.step serve e) := by
  have hsent : (n.step serve e).clients.map (·.sent) = n.clients.map (·.sent) := by
    cases e with
    | connect => exact he.elim
    | send k cmd => exact he.elim
    | read k m beyond => exact map_modify_same (by intro c; rfl)
    | write k w => exact map_modify_same (by intro c; rfl)
    | execute cmd =>
      have hpre : cmd.formatRESP2 [] <+: n.toServer := he
      rw [step, if_pos hpre]
    | _ => rfl
  unfold Short
  rw [hsent]
  exact h

theorem drop_lt {l : Bytes} {m : Nat} (h : l.take m ≠ []) : (l.drop m).length < l.length := by
  have hm : 0 < m := Nat.pos_of_ne_zero fun e => h (by rw [e, List.take_zero])
  have hl : 0 < l.length := List.length_pos_iff.mpr fun e => h (by rw [e, List.take_nil])
  rw [List.length_drop]
  omega

theorem client_of_live (h : Whole serve s n) (hk : n.proxy.Live k) : ∃ c, n.clients[k]? = some c := by
  have hlt : k < n.clients.length := by
    rw [h.senders.paired, h.base.paired]
    exact live_lt hk
  exact ⟨_, List.getElem?_eq_getElem hlt⟩

theorem lowered (h : Whole serve s n) {e : Event} (h' : Whole serve s (n.step serve e)) (he : n.Productive e) :
    Prod.Lex (· < ·) (· < ·) ((n.step serve e).todo, (n.step serve e).owed) (n.todo, n.owed) := by
  rw [Prod.lex_iff]
  obtain ⟨hcalm, hmoves⟩ := he
  have hwritten := written_le h'
  have hreceived := received_le h'
  cases e with
  | connect => exact hmoves.elim
  | send j cmd => exact hmoves.elim
  | leave j => exact hmoves.elim
  | read j m beyond =>
    obtain ⟨new, rest, q, hclean⟩ := hcalm
    obtain ⟨c, hc, -⟩ := hclean.client
    have hin : c.outgoing.take m ≠ [] := by
      have hin := hmoves.2
      rwa [incoming, hc] at hin
    have hlt := drop_lt hin
    have hsum : ((n.step serve (.read j m beyond)).clients.map (·.outgoing.length)).sum + c.outgoing.length =
        (n.clients.map (·.outgoing.length)).sum + (c.outgoing.drop m).length := sum_modify hc
    have hsent : (n.step serve (.read j m beyond)).sentBytes = n.sentBytes :=
      congrArg List.sum (map_modify_same (by intro c; rfl))
    have hexecuted : (n.step serve (.read j m beyond)).executed = n.executed := by
      show (((n.order ++ _).take n.replies.length).flatMap _).length = _
      rw [List.take_append_of_le_length h.upward.count]
      rfl
    have hserver : (n.step serve (.read j m beyond)).toServer = n.toServer := rfl
    left
    simp only [todo, hsent, hexecuted, hserver]
    omega
  | write j w =>
    obtain ⟨conn, hl, hpos⟩ := hcalm
    obtain ⟨c, hc⟩ := client_of_live h ⟨conn, hl⟩
    have hpending : n.pending j = conn.sendBuffer := by rw [Network.pending, hl]; rfl
    have htaken : ((n.pending j).take w.taken).length = w.taken := by
      rw [hpending, List.length_take]
      exact Nat.min_eq_left hpos.1
    have hpositive : 0 < w.taken := hmoves.2
    have hsum : ((n.step serve (.write j w)).clients.map (·.received.length)).sum + c.received.length =
        (n.clients.map (·.received.length)).sum + (c.received ++ (n.pending j).take w.taken).length := sum_modify hc
    rw [List.length_append, htaken] at hsum
    have hsent : (n.step serve (.write j w)).sentBytes = n.sentBytes :=
      congrArg List.sum (map_modify_same (by intro c; rfl))
    have hout : ((n.step serve (.write j w)).clients.map (·.outgoing.length)).sum =
        (n.clients.map (·.outgoing.length)).sum := congrArg List.sum (map_modify_same (by intro c; rfl))
    have hreplies : (n.step serve (.write j w)).replies = n.replies := rfl
    have htoProxy : (n.step serve (.write j w)).toProxy = n.toProxy := rfl
    right
    constructor
    · show (_ + (_ - (n.executed + n.toServer.length)) + (_ - n.executed) : Nat) = _
      rw [hout, hsent]
      rfl
    · rw [hreplies] at hreceived
      simp only [owed, hreplies, htoProxy]
      omega
  | serverWrite w =>
    have hpositive : 0 < w.taken := hmoves.2
    have htaken : (n.proxy.upstream.serverConn.sendBuffer.take w.taken).length = w.taken := by
      rw [List.length_take]
      exact Nat.min_eq_left hcalm.1
    have hserver : (n.step serve (.serverWrite w)).toServer.length = n.toServer.length + w.taken := by
      show (n.toServer ++ _).length = _
      rw [List.length_append, htaken]
    have hexecuted : (n.step serve (.serverWrite w)).executed = n.executed := rfl
    have hsent : (n.step serve (.serverWrite w)).sentBytes = n.sentBytes := rfl
    rw [hserver, hexecuted, hsent] at hwritten
    left
    show ((n.clients.map (·.outgoing.length)).sum + _ + _ : Nat) < _
    rw [hserver, hexecuted, hsent, todo]
    omega
  | execute cmd =>
    have hpre : cmd.formatRESP2 [] <+: n.toServer := hmoves
    have hencode : encode cmd <+: n.toServer := by rwa [formatRESP2_eq, List.nil_append] at hpre
    obtain ⟨k, hk⟩ := next_command h hencode
    obtain ⟨hlt, hget⟩ := List.getElem?_eq_some_iff.mp hk
    have hstep : n.step serve (.execute cmd) = { n with
        toServer := n.toServer.drop (encode cmd).length
        server := (serve n.server cmd).2
        replies := n.replies ++ [(serve n.server cmd).1]
        toProxy := n.toProxy ++ (serve n.server cmd).1.encode } := by
      rw [step, if_pos hpre, formatRESP2_eq, List.nil_append]
    have hpositive : 0 < (encode cmd).length := List.length_pos_iff.mpr (encode_ne_nil cmd)
    have hserver : (n.step serve (.execute cmd)).toServer.length + (encode cmd).length = n.toServer.length := by
      rw [hstep, List.length_drop]
      exact Nat.sub_add_cancel hencode.length_le
    have hexecuted : (n.step serve (.execute cmd)).executed = n.executed + (encode cmd).length := by
      rw [hstep, executed, executed, List.length_append, List.length_singleton, List.take_succ_eq_append_getElem hlt,
        hget, List.flatMap_append, List.length_append, List.flatMap_singleton]
    have hsent : (n.step serve (.execute cmd)).sentBytes = n.sentBytes := by rw [hstep]; rfl
    have hout : (n.step serve (.execute cmd)).clients = n.clients := by rw [hstep]
    rw [hexecuted, hsent] at hwritten
    left
    show (_ + (_ - (_ + _)) + (_ - _) : Nat) < _
    rw [hout, hexecuted, hsent, todo]
    omega
  | serverRead m beyond =>
    have hsplit := congrArg List.length (arriving_drop n m)
    have hpositive : 0 < (n.arriving m).length := List.length_pos_iff.mpr hmoves.2
    rw [List.length_append] at hsplit
    right
    refine ⟨rfl, ?_⟩
    show (n.toProxy.drop (n.arriving m).length).length + _ < n.toProxy.length + _
    exact Nat.add_lt_add_right (by omega) _

/-! ## Every client is answered -/

/-- Each connected client has been answered all its commands, and has received the answers. -/
def Answered (n : Network σ) : Prop :=
  ∀ (k : Nat) (c : Remote), n.clients[k]? = some c → n.proxy.Live k →
    (share k n.direct.log).map (·.1) = c.sent ∧ c.received = n.direct.answered k

theorem ends {room : Nat} (hsteady : ∀ s cmd, (serve s cmd).1.Steady)
    (hsmall : ∀ s cmd, (serve s cmd).1.encode.length < 2 ^ 31) (hr : 1 < r) (h : Whole serve s n) (hw : Watched r n)
    (hs : Short room n) :
    Ends (step serve) Productive (fun n e => n.Productive e ∧ Within room e) (fun n => Answered n ∨ Stalled n) n := by
  refine ends_of_less (I := fun n => Whole serve s n ∧ Watched r n ∧ Short room n)
    (WellFounded.prod_lex Nat.lt_wfRel.wf Nat.lt_wfRel.wf) (fun n => (n.todo, n.owed)) ?_ ?_ ?_ n ⟨h, hw, hs⟩
  · intro n e h he
    exact ⟨whole_step hsteady h.1 e he.1, watched_step hsmall h.1 h.2.1 e he.1 he.2.lasting, short_moved he.2 h.2.2⟩
  · intro n e h he
    exact lowered h.1 (whole_step hsteady h.1 e he.1) he
  · intro n h hno
    refine goes h.1 h.2.1 h.2.2 hr (fun hidle => hno (Or.inl fun k c hc hlive => ?_)) fun hstall => hno (Or.inr hstall)
    exact ⟨idle_asked h.1 hidle hc hlive, idle_received h.1 hidle hc hlive⟩

/-- From the end of a calm run no run that moves bytes goes on for ever, and one that cannot
    go on has answered every client, or replies are stalled, which they are not if all reads
    clear. -/
theorem drains (hsteady : ∀ s cmd, (serve s cmd).1.Steady)
    (hsmall : ∀ s cmd, (serve s cmd).1.encode.length < 2 ^ 31) (r : Nat) (hr : 1 < r) (s : σ)
    {initSize minSize : Nat} (hinit : 0 < initSize) (hmin : 0 < minSize) (room : Nat) (events : List Event)
    (hcalm : (start r (Nat.lt_of_succ_lt hr) s initSize minSize).Each serve (fun n e => n.Calm e ∧ n.Lasting e) events)
    (hshort : ((start r (Nat.lt_of_succ_lt hr) s initSize minSize).run serve events).Short room) :
    let n := (start r (Nat.lt_of_succ_lt hr) s initSize minSize).run serve events
    (∀ more : Nat → Event, ∃ i, ¬ Productive (states (step serve) more n i) (more i)) ∧
    ∀ more : List Event, n.Each serve Productive more →
      (∀ e, Within room e → ¬ Productive (n.run serve more) e) →
        (Answered (n.run serve more) ∨ Stalled (n.run serve more)) ∧
          ((start r (Nat.lt_of_succ_lt hr) s initSize minSize).Each serve Clears (events ++ more) →
            Answered (n.run serve more)) := by
  have hinv := Runs.each_run (I := fun n => Whole serve s n ∧ Watched r n)
    (fun _ e h he => ⟨whole_step hsteady h.1 e he.1, watched_step hsmall h.1 h.2 e he.1 he.2⟩) events _
    ⟨whole_start serve r (Nat.lt_of_succ_lt hr) s initSize minSize,
      watched_start r (Nat.lt_of_succ_lt hr) s initSize minSize⟩ hcalm
  have hends := ends hsteady hsmall hr hinv.1 hinv.2 hshort
  refine ⟨hends.no_run, fun more hmore hlast => ?_⟩
  have hgoal := hends.last more _ hmore fun e he => hlast e he.2 he.1
  refine ⟨hgoal, fun hclears => hgoal.resolve_right ?_⟩
  have hall := (Runs.each_append events more _).mpr
    ⟨hcalm.mono fun _ _ he => he.1, hmore.mono fun _ _ he => he.1⟩
  have hroomy := Runs.each_run (I := fun n => Whole serve s n ∧ Roomy n)
    (fun _ e h he => ⟨whole_step hsteady h.1 e he.1, roomy_step h.1 h.2 e he.1 he.2⟩) _ _
    ⟨whole_start serve r (Nat.lt_of_succ_lt hr) s initSize minSize, roomy_start r _ s hinit hmin⟩ (hall.and hclears)
  rw [List.foldl_append] at hroomy
  exact hroomy.2.not_stalled

/-- A server that answers OK. -/
def ok : Serve Nat := fun n _ => (.simple ⟨[79, 75], by decide⟩, n + 1)

theorem ok_steady (n : Nat) (cmd : Cmd) : (ok n cmd).1.Steady := trivial

theorem ok_small (n : Nat) (cmd : Cmd) : (ok n cmd).1.encode.length < 2 ^ 31 := show 5 < 2 ^ 31 by decide

/-- One command is read and not written, the other is still in its client's socket. -/
def halt : List Event := [.connect, .connect, .send 0 [[80]], .send 1 [[81]], .read 1 11 []]

theorem halt_calm : (start 2 (by decide) 0 64 16).Each ok (fun n e => n.Calm e ∧ n.Lasting e) halt := by
  refine ⟨⟨trivial, trivial⟩, ⟨trivial, trivial⟩, ⟨⟨by decide, by decide⟩, trivial⟩, ⟨⟨by decide, by decide⟩, trivial⟩,
    ⟨⟨[[[81]]], [], [], ?_⟩, trivial⟩, trivial⟩
  exact ⟨⟨_, rfl, rfl, rfl⟩, ⟨_, rfl⟩, Or.inl rfl, by decide⟩

theorem drains_two :
    let n := (start 2 (by decide) 0 64 16).run ok halt
    (∀ more : Nat → Event, ∃ i, ¬ Productive (states (step ok) more n i) (more i)) ∧
    ∀ more : List Event, n.Each ok Productive more →
      (∀ e, Within 16 e → ¬ Productive (n.run ok more) e) →
        (Answered (n.run ok more) ∨ Stalled (n.run ok more)) ∧
          ((start 2 (by decide) 0 64 16).Each ok Clears (halt ++ more) → Answered (n.run ok more)) :=
  drains ok_steady ok_small 2 (by decide) 0 (by decide) (by decide) 16 halt halt_calm (by unfold Short; decide)

end RedisProxy.System.Network
