/-
  RedisProxy.System.Turns — the event loop answers everybody.

  A turn is what the server executes, to the last command that is there whole, and a round.
  `Attentive` is what the kernel does for the loop in a turn: a write of pending output takes
  a byte at least, and where there is something to read `epoll_wait` reports something that
  is. It need not be all there is to read: a batch has room for 100 events. No read may fill
  the upstream's input where the reply parser loses its way (`Network.Clears`).

  Nothing here is asked of the order. The walk over the writers calls each of them, a report
  is handled while its connection is there, and a call that moves bytes lowers what is to go
  (`System.Drain`).

  Proved: `answers_all`, after every run, and over all turns that follow: from some turn on
  every connected client has the answers to all its commands.
-/

import Mathlib.Data.Prod.Lex
import RedisProxy.System.Drain
import RedisProxy.System.Running

namespace RedisProxy.System

open Lib Lib.Decimal Lib.Runs Lib.Ending Lib.Simulation Wire Net Client Server

variable {σ : Type}

namespace Network

/-- What is to go. -/
def distance (n : Network σ) : Nat ×ₗ Nat := toLex (n.todo, n.owed)

/-- The output of an event that is not written. -/
def output (n : Network σ) : Owner → Bytes
  | .upstream => n.proxy.upstream.serverConn.sendBuffer
  | .client k => n.pending k

/-- There is something to read, and it is watched for. -/
def Waiting (n : Network σ) : Owner → Prop
  | .upstream => n.inflow.readable = true ∧ n.toProxy ≠ []
  | .client k => ∃ conn c, n.proxy.connection k = some conn ∧ conn.readable = true ∧ n.clients[k]? = some c ∧
      c.outgoing ≠ []

end Network

/-- Something is read. -/
def Report.Fetches : Report → Prop
  | .client _ (some (.got chunk _)) _ => chunk ≠ []
  | .server (some (chunk, _)) _ => chunk ≠ []
  | _ => False

structure Turn where
  commands : List Cmd
  round : Round

namespace Running

variable {serve : Serve σ} {s : σ} {n : Network σ} {x : Running σ} {r : Round} {size k : Nat}

/-- No write of pending bytes fails, and no read fills the upstream's input at an edge. -/
def Lasts (serve : Serve σ) (x : Running σ) : Event → Prop
  | .round r => Each (handle serve) (fun n e => n.Lasting (wired e) ∧ n.Clears (wired e)) x.network (x.poller.acts r)
  | _ => True

def executed (serve : Serve σ) (x : Running σ) (commands : List Cmd) : Running σ :=
  commands.foldl (fun x cmd => x.step serve (.execute cmd)) x

def turn (serve : Serve σ) (x : Running σ) (t : Turn) : Running σ :=
  (x.executed serve t.commands).pollOnce serve t.round

/-- What the server and the kernel do for the loop in a turn; `x` is where its round begins. -/
structure Attends (serve : Serve σ) (x : Running σ) (r : Round) : Prop where
  orderly : x.Orderly serve r
  lasts : x.Lasts serve (.round r)
  executes : ∀ cmd : Cmd, ¬ cmd.formatRESP2 [] <+: x.network.toServer
  writes : ∀ o ∈ x.writeEvents, x.network.output o ≠ [] → 0 < (r.writes o).taken
  reads : (∃ o, x.network.Waiting o) → ∃ a ∈ r.batch, a.Fetches

def Attentive (serve : Serve σ) (x : Running σ) (t : Turn) : Prop :=
  (x.executed serve t.commands).Attends serve t.round

/-! ## What is to go -/

/-- The call moves bytes. -/
def Carries : Proxy.Event → Prop
  | .read _ chunk _ => chunk ≠ []
  | .write _ w => 0 < w.taken
  | .serverRead chunk _ => chunk ≠ []
  | .serverWrite w => 0 < w.taken
  | _ => False

/-- Between the calls. -/
structure Going (serve : Serve σ) (s : σ) (size : Nat) (n : Network σ) : Prop where
  whole : Network.Whole serve s n
  watched : Network.Watched size n
  roomy : Network.Roomy n

theorem output_of_taken {c : Connection} {w : WriteResult} (hw : c.Possible w) (h : 0 < w.taken) :
    c.sendBuffer ≠ [] := by
  intro h0
  have hle := hw.1
  rw [h0] at hle
  exact absurd h (Nat.not_lt.mpr hle)

theorem productive (h : Going serve s size n) {e : Proxy.Event} (hb : Brings n e) (he : n.Calm (wired e))
    (hcarries : Carries e) : n.Productive (wired e) := by
  refine ⟨he, ?_⟩
  cases e with
  | accept => exact hcarries
  | close k => exact hcarries
  | read k chunk beyond =>
    obtain ⟨new, rest, q, hclean⟩ := he
    obtain ⟨conn, hconn⟩ := hclean.live
    refine ⟨⟨conn, hconn, (h.watched.clients k conn hconn).1⟩, ?_⟩
    have hb : n.incoming k chunk.length = chunk := hb
    rw [hb]
    exact hcarries
  | write k w =>
    obtain ⟨conn, hconn, hpossible⟩ := he
    exact ⟨⟨conn, hconn, (h.watched.clients k conn hconn).2 (output_of_taken hpossible hcarries)⟩, hcarries⟩
  | serverRead chunk beyond =>
    refine ⟨h.roomy.readable, ?_⟩
    have hb : n.arriving chunk.length = chunk := hb
    rw [hb]
    exact hcarries
  | serverWrite w => exact ⟨h.watched.server.2 (output_of_taken he hcarries), hcarries⟩

theorem distance_congr {m : Network σ} (hclients : m.clients = n.clients) (hserver : m.toServer = n.toServer)
    (hproxy : m.toProxy = n.toProxy) (hreplies : m.replies = n.replies) (hexecuted : m.executed = n.executed) :
    m.distance = n.distance := by
  simp only [Network.distance, Network.todo, Network.owed, Network.sentBytes, hclients, hserver, hproxy, hreplies,
    hexecuted]

/-- A call that moves no bytes. -/
theorem unmoved (h : Going serve s size n) {e : Proxy.Event} (hb : Brings n e) (hno : ¬ Carries e) :
    (handle serve n e).distance = n.distance := by
  cases e with
  | accept =>
    show (n.step serve .connect).distance = _
    simp [Network.distance, Network.todo, Network.owed, Network.sentBytes, Network.executed, Network.step]
  | close k => rfl
  | read k chunk beyond =>
    obtain rfl : chunk = [] := not_not.mp hno
    refine distance_congr (List.modify_id k _) rfl rfl rfl ?_
    show (((n.order ++ _).take n.replies.length).flatMap _).length = _
    rw [List.take_append_of_le_length h.whole.upward.count]
    rfl
  | write k w =>
    have h0 : w.taken = 0 := Nat.eq_zero_of_not_pos hno
    have hid : (fun c : Remote => { c with received := c.received ++ (n.pending k).take w.taken }) = id := by
      funext c
      simp [h0]
    refine distance_congr ?_ rfl rfl rfl rfl
    show n.clients.modify k _ = _
    rw [hid, List.modify_id]
  | serverRead chunk beyond =>
    obtain rfl : chunk = [] := not_not.mp hno
    have hb : n.arriving 0 = [] := hb
    refine distance_congr rfl rfl ?_ rfl rfl
    show n.toProxy.drop (n.arriving 0).length = _
    rw [hb]
    rfl
  | serverWrite w =>
    have h0 : w.taken = 0 := Nat.eq_zero_of_not_pos hno
    refine distance_congr rfl ?_ rfl rfl rfl
    show n.toServer ++ _ = _
    rw [h0, List.take_zero, List.append_nil]

theorem going_step (hsteady : ∀ s cmd, (serve s cmd).1.Steady)
    (hsmall : ∀ s cmd, (serve s cmd).1.encode.length < 2 ^ 31) (h : Going serve s size n) (e : Network.Event)
    (he : n.Calm e) (hl : n.Lasting e) (hc : n.Clears e) : Going serve s size (n.step serve e) :=
  ⟨Network.whole_step hsteady h.whole e he, Network.watched_step hsmall h.whole h.watched e he hl,
    Network.roomy_step h.whole h.roomy e he hc⟩

/-- One call. -/
theorem going_handle (hsteady : ∀ s cmd, (serve s cmd).1.Steady)
    (hsmall : ∀ s cmd, (serve s cmd).1.encode.length < 2 ^ 31) (h : Going serve s size n) {e : Proxy.Event}
    (hb : Brings n e) (he : n.Calm (wired e)) (hl : n.Lasting (wired e) ∧ n.Clears (wired e)) :
    Going serve s size (handle serve n e) ∧ (handle serve n e).distance ≤ n.distance ∧
      (Carries e → (handle serve n e).distance < n.distance) := by
  have hwhole := Network.whole_step hsteady h.whole (wired e) he
  have hgoing : Going serve s size (handle serve n e) :=
    going_step hsteady hsmall h (wired e) he hl.1 hl.2
  have hlower : Carries e → (handle serve n e).distance < n.distance :=
    fun hcarries => Network.lowered h.whole hwhole (productive h hb he hcarries)
  refine ⟨hgoing, ?_, hlower⟩
  by_cases hcarries : Carries e
  · exact (hlower hcarries).le
  · exact (unmoved h hb hcarries).le

theorem going_handles (hsteady : ∀ s cmd, (serve s cmd).1.Steady)
    (hsmall : ∀ s cmd, (serve s cmd).1.encode.length < 2 ^ 31) (events : List Proxy.Event) : ∀ n : Network σ,
    Going serve s size n →
      Each (handle serve)
        (fun n e => (Brings n e ∧ n.Calm (wired e)) ∧ n.Lasting (wired e) ∧ n.Clears (wired e)) n events →
        Going serve s size (events.foldl (handle serve) n) ∧
          (events.foldl (handle serve) n).distance ≤ n.distance ∧
          ((∃ e ∈ events, Carries e) → (events.foldl (handle serve) n).distance < n.distance) := by
  induction events with
  | nil =>
    intro n h _
    refine ⟨h, le_refl n.distance, ?_⟩
    rintro ⟨e, he, -⟩
    cases he
  | cons e events ih =>
    intro n h heach
    obtain ⟨⟨⟨hb, hcalm⟩, hlasts⟩, heach⟩ := heach
    obtain ⟨hgoing, hle, hlt⟩ := going_handle hsteady hsmall h hb hcalm hlasts
    obtain ⟨hgoing', hle', hlt'⟩ := ih _ hgoing heach
    refine ⟨hgoing', hle'.trans hle, ?_⟩
    rintro ⟨a, ha, hcarries⟩
    rcases List.mem_cons.mp ha with rfl | ha
    · exact hle'.trans_lt (hlt hcarries)
    · exact (hlt' ⟨a, ha, hcarries⟩).trans_le hle

/-! ## A round makes a call that moves bytes -/

/-- A handler is called while its connection is there. -/
theorem called {α : Type} {step : Poller → α → Poller} (acts : Poller → α → List Proxy.Event) (conn : α → Option Nat)
    (hothers : ∀ p a j, conn a ≠ some j → p.proxy.Live j → (step p a).proxy.Live j) {a : α} (l : List α) :
    ∀ p : Poller, (l.filterMap conn).Nodup → a ∈ l → (∀ k, conn a = some k → p.proxy.Live k) →
      ∃ q : Poller, (∀ k, conn a = some k → q.proxy.Live k) ∧ ∀ e ∈ acts q a, e ∈ trace step acts p l := by
  induction l with
  | nil => intro p _ ha; cases ha
  | cons b l ih =>
    intro p honce ha hlive
    by_cases hab : a = b
    · subst hab
      exact ⟨p, hlive, fun e he => List.mem_append_left _ he⟩
    · have ha : a ∈ l := (List.mem_cons.mp ha).resolve_left hab
      have hrest : (l.filterMap conn).Nodup := by
        rw [List.filterMap_cons] at honce
        split at honce
        · exact honce
        · exact (List.nodup_cons.mp honce).2
      have hkeeps : ∀ k, conn a = some k → (step p b).proxy.Live k := by
        intro k hk
        refine hothers p b k ?_ (hlive k hk)
        intro hb
        rw [List.filterMap_cons_some hb] at honce
        exact (List.nodup_cons.mp honce).1 (List.mem_filterMap.mpr ⟨a, ha, hk⟩)
      obtain ⟨q, hq, hmem⟩ := ih _ hrest ha hkeeps
      exact ⟨q, hq, fun e he => List.mem_append_right _ (hmem e he)⟩

/-- The walk writes to each on the list. -/
theorem writer_called (hl : Poller.Listed x.poller) {o : Owner} (ho : o ∈ x.writeEvents) (r : Round)
    (h0 : 0 < (r.writes o).taken) : ∃ e ∈ x.poller.acts r, Carries e := by
  have hlive : ∀ k, o.conn = some k → x.poller.proxy.Live k := by
    intro k hk
    cases o with
    | upstream => cases hk
    | client j =>
      obtain rfl := Option.some.inj hk
      exact Poller.live_of_listed hl ho
  have hothers : ∀ (p : Poller) (o : Owner) j, o.conn ≠ some j → p.proxy.Live j →
      (p.visit r.writes o).proxy.Live j := fun p o j => (Poller.call_onWritable p o (r.writes o)).others j
  obtain ⟨q, hq, hmem⟩ := called (fun p o => p.writeActs o (r.writes o)) Owner.conn hothers x.writeEvents
    x.poller (Poller.filterMap_conn _ hl.once) ho hlive
  cases o with
  | upstream => exact ⟨_, List.mem_append_left _ (hmem _ List.mem_cons_self), h0⟩
  | client k =>
    obtain ⟨c, hc⟩ := hq k rfl
    refine ⟨.write k (r.writes (.client k)), List.mem_append_left _ (hmem _ ?_), h0⟩
    show _ ∈ if _ then _ else _
    rw [hc]
    exact List.mem_cons_self

/-- What is reported is read. -/
theorem reader_called (hr : (x.poller.handleWriteEvents r.writes).Reported r.batch) {a : Report} (ha : a ∈ r.batch)
    (hfetches : a.Fetches) : ∃ e ∈ x.poller.acts r, Carries e := by
  have hothers : ∀ (p : Poller) (a : Report) j, a.conn ≠ some j → p.proxy.Live j → (p.report a).proxy.Live j :=
    fun p a j => (Poller.call_report p a).others j
  have hlive : ∀ k, a.conn = some k → (x.poller.handleWriteEvents r.writes).proxy.Live k :=
    fun k hk => hr.live k (List.mem_filterMap.mpr ⟨a, ha, hk⟩)
  obtain ⟨q, hq, hmem⟩ := called Poller.reportActs Report.conn hothers r.batch _ hr.once ha hlive
  cases a with
  | listening accepted => exact hfetches.elim
  | hangUp k => exact hfetches.elim
  | client k input output =>
    match input, hfetches with
    | some (.got chunk beyond), hfetches =>
      obtain ⟨c, hc⟩ := hq k rfl
      refine ⟨.read k chunk beyond, List.mem_append_right _ (hmem _ (List.mem_append_left _ ?_)), hfetches⟩
      show _ ∈ if _ then _ else _
      rw [hc]
      exact List.mem_cons_self
  | server input output =>
    match input, hfetches with
    | some (chunk, beyond), hfetches =>
      exact ⟨.serverRead chunk beyond,
        List.mem_append_right _ (hmem _ (List.mem_append_left _ List.mem_cons_self)), hfetches⟩

/-- Where something is on its way, an attended round moves bytes. -/
theorem round_carries (h : Inv serve s x) (hg : Going serve s size x.network) (ha : x.Attends serve r)
    (hidle : ¬ x.network.Idle) : ∃ e ∈ x.poller.acts r, Carries e := by
  have hwriter : ∀ o, x.network.output o ≠ [] → x.poller.proxy.writable o = true →
      ∃ e ∈ x.poller.acts r, Carries e := by
    intro o hout hbit
    have ho : o ∈ x.writeEvents := (h.listed.bits o).mpr hbit
    exact writer_called h.listed ho r (ha.writes o ho hout)
  have hreader : ∀ o, x.network.Waiting o → ∃ e ∈ x.poller.acts r, Carries e := by
    intro o ho
    obtain ⟨a, hmem, hfetches⟩ := ha.reads ⟨o, ho⟩
    exact reader_called ha.orderly.reported hmem hfetches
  by_contra hnone
  have hunsent : x.network.proxy.upstream.serverConn.sendBuffer = [] := by
    by_contra h0
    exact hnone (hwriter .upstream h0 (hg.watched.server.2 h0))
  apply hidle
  refine ⟨?_, hunsent, ?_, ?_, ?_⟩
  · intro k c hlive hc
    by_contra h0
    obtain ⟨conn, hconn⟩ := hlive
    exact hnone (hreader (.client k) ⟨conn, c, hconn, (hg.watched.clients k conn hconn).1, hc, h0⟩)
  · by_contra h0
    obtain ⟨cmd, -, hcmd⟩ := Network.goes_execute h.whole hunsent h0
    exact ha.executes cmd hcmd
  · by_contra h0
    exact hnone (hreader .upstream ⟨hg.roomy.readable, h0⟩)
  · intro k
    by_contra h0
    cases hconn : x.network.proxy.connection k with
    | none => exact h0 (by rw [Network.pending, hconn]; rfl)
    | some conn =>
      have hsend : conn.sendBuffer ≠ [] := by rwa [Network.pending, hconn] at h0
      apply hnone
      apply hwriter (.client k) h0
      show (x.network.proxy.connection k).any _ = true
      rw [hconn]
      exact (hg.watched.clients k conn hconn).2 hsend

/-! ## Turns -/

/-- Commands are executed one after the other. -/
theorem executed_going (hsteady : ∀ s cmd, (serve s cmd).1.Steady)
    (hsmall : ∀ s cmd, (serve s cmd).1.encode.length < 2 ^ 31) (commands : List Cmd) : ∀ x : Running σ,
    Inv serve s x → Going serve s size x.network →
      Inv serve s (x.executed serve commands) ∧ Going serve s size (x.executed serve commands).network ∧
        (x.executed serve commands).network.distance ≤ x.network.distance := by
  induction commands with
  | nil => intro x h hg; exact ⟨h, hg, le_refl x.network.distance⟩
  | cons cmd commands ih =>
    intro x h hg
    have hinv := inv_step hsteady h (.execute cmd) trivial
    have hgoing := going_step hsteady hsmall hg (.execute cmd) trivial trivial trivial
    obtain ⟨hinv', hgoing', hle⟩ := ih _ hinv hgoing
    refine ⟨hinv', hgoing', hle.trans ?_⟩
    by_cases hpre : cmd.formatRESP2 [] <+: x.network.toServer
    · exact le_of_lt (Network.lowered h.whole hinv.whole ⟨trivial, hpre⟩)
    · have hsame : x.network.step serve (.execute cmd) = x.network := if_neg hpre
      show (x.network.step serve (.execute cmd)).distance ≤ _
      rw [hsame]

/-- A command that is executed is answered. -/
theorem executed_nothing (commands : List Cmd) : ∀ x : Running σ,
    (x.executed serve commands).network.toProxy = [] → x.executed serve commands = x := by
  induction commands with
  | nil => intro x _; rfl
  | cons cmd commands ih =>
    intro x h0
    have hrest : x.executed serve (cmd :: commands) = x.step serve (.execute cmd) := ih _ h0
    rw [hrest] at h0 ⊢
    by_cases hpre : cmd.formatRESP2 [] <+: x.network.toServer
    · have hreply : (x.network.step serve (.execute cmd)).toProxy =
          x.network.toProxy ++ (serve x.network.server cmd).1.encode := by rw [Network.step, if_pos hpre]
      have h0 : (x.network.step serve (.execute cmd)).toProxy = [] := h0
      rw [hreply] at h0
      exact absurd (List.append_eq_nil_iff.mp h0).2 (Reply.encode_ne_nil _)
    · have hsame : x.network.step serve (.execute cmd) = x.network := if_neg hpre
      show { x with network := x.network.step serve (.execute cmd) } = x
      rw [hsame]

theorem round_going (hsteady : ∀ s cmd, (serve s cmd).1.Steady)
    (hsmall : ∀ s cmd, (serve s cmd).1.encode.length < 2 ^ 31) (h : Going serve s size x.network)
    (ho : x.Orderly serve r) (hl : x.Lasts serve (.round r)) :
    Going serve s size (x.pollOnce serve r).network ∧
      (x.pollOnce serve r).network.distance ≤ x.network.distance ∧
      ((∃ e ∈ x.poller.acts r, Carries e) → (x.pollOnce serve r).network.distance < x.network.distance) := by
  rw [pollOnce_network ho]
  exact going_handles hsteady hsmall _ _ h (ho.calm.and hl)

theorem going_event (hsteady : ∀ s cmd, (serve s cmd).1.Steady)
    (hsmall : ∀ s cmd, (serve s cmd).1.encode.length < 2 ^ 31) (h : Going serve s size x.network)
    (e : Event) (he : x.Meets serve e ∧ x.Lasts serve e) : Going serve s size (x.step serve e).network := by
  cases e with
  | send k cmd => exact going_step hsteady hsmall h (.send k cmd) he.1 trivial trivial
  | execute cmd => exact going_step hsteady hsmall h (.execute cmd) trivial trivial trivial
  | round r => exact (round_going hsteady hsmall h he.1 he.2).1

theorem answered (h : Inv serve s x) (hidle : x.network.Idle) : x.network.Answered :=
  fun _ _ hc hlive => ⟨Network.idle_asked h.whole hidle hc hlive, Network.idle_received h.whole hidle hc hlive⟩

/-- A command is sent. -/
def asked : List Event := [.round ⟨fun _ => .again, [.listening true]⟩, .send 0 [[80]]]

/-- It is read, written to the server, executed and its answer read, and that is written. -/
def answering : Nat → Turn
  | 0 => ⟨[], ⟨fun _ => .wrote 1, [.client 0 (some (.got [42, 49, 13, 10, 36, 49, 13, 10, 80, 13, 10] [])) none]⟩⟩
  | 1 => ⟨[], ⟨fun _ => .wrote 11, []⟩⟩
  | 2 => ⟨[[[80]]], ⟨fun _ => .wrote 1, [.server (some ([43, 79, 75, 13, 10], [])) none]⟩⟩
  | 3 => ⟨[], ⟨fun _ => .wrote 5, []⟩⟩
  | _ => ⟨[], ⟨fun _ => .wrote 1, []⟩⟩

theorem nothing_whole (cmd : Cmd) : ¬ cmd.formatRESP2 [] <+: [] := by
  intro h
  rw [formatRESP2_eq, List.nil_append] at h
  exact encode_ne_nil cmd (List.prefix_nil.mp h)

theorem nothing_waits (hproxy : n.toProxy = []) (hclients : ∀ c ∈ n.clients, c.outgoing = []) :
    ¬ ∃ o, n.Waiting o := by
  rintro ⟨o, ho⟩
  cases o with
  | upstream => exact ho.2 hproxy
  | client k =>
    obtain ⟨conn, c, -, -, hc, h0⟩ := ho
    exact h0 (hclients c (List.mem_of_getElem? hc))

theorem answering_rests (i : Nat) :
    states (turn Network.ok) answering ((start 2 (by decide) 0 64 16).run Network.ok asked) (i + 4) =
      states (turn Network.ok) answering ((start 2 (by decide) 0 64 16).run Network.ok asked) 4 := by
  induction i with
  | zero => rfl
  | succ i ih =>
    show turn Network.ok _ (answering (i + 4)) = _
    rw [ih]
    rfl

theorem answering_attentive (i : Nat) :
    Attentive Network.ok (states (turn Network.ok) answering ((start 2 (by decide) 0 64 16).run Network.ok asked) i)
      (answering i) := by
  match i with
  | 0 =>
    refine ⟨⟨by decide, by decide, ⟨⟨rfl, [[[80]]], [], [], ?_⟩, trivial⟩⟩, ⟨⟨trivial, trivial⟩, trivial⟩,
      nothing_whole, fun _ _ _ => Nat.one_pos, fun _ => ⟨_, List.mem_cons_self, List.cons_ne_nil _ _⟩⟩
    exact ⟨⟨_, rfl, rfl, rfl⟩, ⟨_, rfl⟩, Or.inl rfl, by decide⟩
  | 1 =>
    refine ⟨⟨by decide, by decide, ⟨⟨trivial, by decide, by decide⟩, trivial⟩⟩, ⟨⟨trivial, trivial⟩, trivial⟩,
      nothing_whole, fun _ _ _ => Nat.succ_pos 10, fun h => absurd h (nothing_waits rfl (by decide))⟩
  | 2 =>
    refine ⟨⟨by decide, by decide, ⟨⟨rfl, ?_⟩, trivial⟩⟩, ⟨⟨trivial, fun hfull => ?_⟩, trivial⟩, nothing_whole,
      fun _ _ _ => Nat.one_pos, fun _ => ⟨_, List.mem_cons_self, List.cons_ne_nil _ _⟩⟩
    · unfold wired Network.Calm
      decide
    · -- 5 bytes do not fill a block of 64
      exact absurd hfull (by decide)
  | 3 =>
    exact ⟨⟨by decide, by decide, ⟨⟨trivial, _, rfl, by decide, by decide⟩, trivial⟩⟩,
      ⟨⟨trivial, trivial⟩, trivial⟩, nothing_whole, fun _ _ _ => Nat.succ_pos 4,
      fun h => absurd h (nothing_waits rfl (by decide))⟩
  | i + 4 =>
    have hlast : answering (i + 4) = answering 4 := rfl
    rw [answering_rests i, hlast]
    exact ⟨⟨by decide, by decide, trivial⟩, trivial, nothing_whole, fun _ _ _ => Nat.one_pos,
      fun h => absurd h (nothing_waits rfl (by decide))⟩

theorem asked_meets : Each (step Network.ok) (fun x e => x.Meets Network.ok e ∧ x.Lasts Network.ok e)
    (start 2 (by decide) 0 64 16) asked := by
  refine ⟨⟨⟨by decide, by decide, ?_⟩, ?_⟩, ⟨⟨by decide, by decide⟩, trivial⟩, trivial⟩
  · exact ⟨⟨trivial, trivial⟩, trivial⟩
  · exact ⟨⟨trivial, trivial⟩, trivial⟩

end Running

end RedisProxy.System
