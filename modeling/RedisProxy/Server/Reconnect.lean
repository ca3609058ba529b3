/-
  RedisProxy.Server.Reconnect — runs over several upstream connections.

  Pushes, write events, reads and closes (`Event`). A close is `OnClosed`,
  `OnServerClosed` and a `Reconnect` that succeeds: the send buffer, the queue, the reply
  buffer and the parser stay as they are. (`OnClosed` then deletes the connection object,
  and the new descriptor is watched for nothing; a run has no meaning after the first and
  no reads after the second. Neither is modelled: what is shown here is what the state
  that stays does.)

  Commands go out in the order they were accepted, so where the instance began in the
  stream of their bytes (`opened`) and how far it has got (`sent`) say which commands the
  instance was given in full (`Given`). The upstream answers those, in order, each once
  (`answers`), and each call is recorded with the two numbers as they were (`log`).

  Proved: `no_reply_crosses`, over every run whose closes all find the upstream quiet
  (`Quiet`: the send buffer is exactly the commands of the queue, no byte of a reply is
  there): each call goes to the reader of a command given in full to the instance the
  reply came from, and carries the reply to that command; no entry, no part of a command
  and no part of a reply is left from an instance before (`Sound`). `reply_crosses` is a
  run with one other close.
-/

import RedisProxy.Server.Routing

namespace RedisProxy.Server

open Lib Lib.Decimal Lib.Pieces Wire Net

/-- `OnClosed` of the upstream connection, up to the handler's return. -/
def Upstream.onServerClosed {R : Type} (u : Upstream R) : Upstream R :=
  { u with serverConn := u.serverConn.close.reconnect }

structure Link (R : Type) where
  relay : Relay R
  /-- The pushes accepted so far. -/
  accepted : List (Cmd × R)
  /-- The bytes of commands written before this instance, and up to now. -/
  opened : Nat
  sent : Nat
  /-- The bytes received on this instance. -/
  received : Bytes
  /-- `opened` and `sent` at each call. -/
  log : List (Nat × Nat)

namespace Link

variable {R : Type} (identity : R → Nat) (reply : Nat → Reply)

inductive Event (R : Type) where
  | push (cmd : Cmd) (reader : R)
  | write (w : WriteResult)
  | read (chunk beyond : Bytes)
  | close

def start (n : Nat) (h : 0 < n) : Link R := ⟨⟨.start n h, []⟩, [], 0, 0, [], []⟩

def step (x : Link R) : Event R → Link R
  | .push cmd reader =>
    { x with relay := { x.relay with upstream := (x.relay.upstream.pushRequest identity cmd reader).2 },
             accepted :=
               if (x.relay.upstream.pushRequest identity cmd reader).1 = .ok then x.accepted ++ [(cmd, reader)]
               else x.accepted }
  | .write w =>
    { x with relay := { x.relay with upstream := x.relay.upstream.onWritable w }, sent := x.sent + w.taken }
  | .read chunk beyond =>
    { x with relay := x.relay.onReadable identity (chunk, beyond), received := x.received ++ chunk,
             log := x.log ++ List.replicate
               ((x.relay.onReadable identity (chunk, beyond)).writes.length - x.relay.writes.length)
                 (x.opened, x.sent) }
  | .close =>
    { x with relay := { x.relay with upstream := x.relay.upstream.onServerClosed }, opened := x.sent, received := [] }

def run (x : Link R) (events : List (Event R)) : Link R := events.foldl (step identity) x

/-- `P` of the state before every event of the run, and the event. -/
def Each (P : Link R → Event R → Prop) (x : Link R) (events : List (Event R)) : Prop :=
  Runs.Each (step identity) P x events

/-! ## Which commands an instance was given -/

def bytesOf (accepted : List (Cmd × R)) : Bytes := accepted.flatMap fun a => a.1.formatRESP2 []

/-- Where the `k`-th command begins among their bytes. -/
def offset (accepted : List (Cmd × R)) (k : Nat) : Nat := (bytesOf (accepted.take k)).length

/-- All bytes of the `k`-th command are among those from `opened` up to `sent`. -/
def Given (accepted : List (Cmd × R)) (opened sent k : Nat) : Prop :=
  opened ≤ offset accepted k ∧ offset accepted (k + 1) ≤ sent

instance (accepted : List (Cmd × R)) (opened sent k : Nat) : Decidable (Given accepted opened sent k) := by
  unfold Given; infer_instance

/-- The replies to the commands this instance was given. -/
def answers (x : Link R) : Bytes :=
  ((List.range x.accepted.length).filter fun k =>
    decide (Given x.accepted x.opened x.sent k)).flatMap fun k => (reply k).encode

/-- What the kernel and the upstream can do. -/
def Allowed (x : Link R) : Event R → Prop
  | .write w => x.relay.upstream.serverConn.Possible w
  | .read chunk _ => x.received ++ chunk <+: answers reply x
  | _ => True

/-- The send buffer is exactly the commands of the queue, and no byte of a reply is there. -/
structure Quiet (x : Link R) : Prop where
  unsent : x.relay.upstream.serverConn.sendBuffer =
    bytesOf (x.accepted.drop (x.accepted.length - x.relay.upstream.cmdQueue.held.length))
  unread : x.relay.upstream.parser.inputb = []
  unparsed : x.relay.upstream.respBuffer = []

/-- Closes find the upstream quiet, and reads fewer than 2^31 bytes. -/
def Kept (x : Link R) : Event R → Prop
  | .read chunk _ => (x.relay.upstream.parser.inputb ++ chunk).length < 2 ^ 31
  | .close => Quiet x
  | _ => True

/-- Each call is for the command whose reply it carries, and that command was given in
    full to the instance the reply came from. Nothing of the instances before is left: the
    entries are of commands from `opened` on, no command is cut there, and the parser has
    only what came on this instance. -/
structure Sound (x : Link R) : Prop where
  calls : ∃ D, D ≤ x.accepted.length ∧ x.relay.writes = Exchange.calls reply (x.accepted.take D) ∧
    x.relay.upstream.cmdQueue.held = ((x.accepted.drop D).map fun a => ⟨identity a.2, some a.2⟩) ∧
      x.opened ≤ offset x.accepted D
  given : x.log.length = x.relay.writes.length ∧ ∀ k opened sent, x.log[k]? = some (opened, sent) →
    Given x.accepted opened sent k
  whole : ∃ base, base ≤ x.accepted.length ∧ x.opened = offset x.accepted base
  fresh : x.received = [] → x.relay.upstream.parser = .init ∧ x.relay.upstream.respBuffer = []

variable {identity reply} {accepted : List (Cmd × R)}

theorem bytesOf_append (l l' : List (Cmd × R)) :
    bytesOf (l ++ l') = bytesOf l ++ bytesOf l' := by simp [bytesOf]

theorem offset_append {k : Nat} (h : k ≤ accepted.length) (l : List (Cmd × R)) :
    offset (accepted ++ l) k = offset accepted k := by
  rw [offset, offset, List.take_append_of_le_length h]

theorem offset_drop {k : Nat} (accepted : List (Cmd × R)) :
    offset accepted k + (bytesOf (accepted.drop k)).length = (bytesOf accepted).length := by
  rw [offset, ← List.length_append, ← bytesOf_append, List.take_append_drop]

theorem offset_lt {k : Nat} (h : k < accepted.length) : offset accepted k < offset accepted (k + 1) := by
  have htake : accepted.take (k + 1) = accepted.take k ++ [accepted.get ⟨k, h⟩] := by
    rw [List.take_succ_eq_append_getElem h]; rfl
  rw [offset, offset, htake, bytesOf_append, List.length_append]
  have : 0 < (bytesOf [accepted.get ⟨k, h⟩]).length := by
    have h1 := length_lt_encode (accepted.get ⟨k, h⟩).1
    simp only [bytesOf, List.flatMap_cons, List.flatMap_nil, List.append_nil, formatRESP2_eq, List.nil_append]
    omega
  omega

theorem offset_mono {j k : Nat} (h : j ≤ k) : offset accepted j ≤ offset accepted k := by
  rw [offset, offset]
  have : accepted.take j = (accepted.take k).take j := by rw [List.take_take, Nat.min_eq_left h]
  rw [this]
  conv_rhs => rw [← List.take_append_drop j (accepted.take k)]
  rw [bytesOf_append, List.length_append]
  exact Nat.le_add_right _ _

theorem given_append {opened sent k : Nat} (h : k < accepted.length) (l : List (Cmd × R)) :
    Given (accepted ++ l) opened sent k ↔ Given accepted opened sent k := by
  rw [Given, Given, offset_append (Nat.le_of_lt h), offset_append h]

/-- The calls of a read, those up to `D'` recorded with the same two numbers. -/
theorem given_calls {log : List (Nat × Nat)} {D D' opened sent : Nat} (hlen : log.length = D)
    (hlog : ∀ k o s, log[k]? = some (o, s) → Given accepted o s k)
    (hnew : ∀ k, D ≤ k → k < D' → Given accepted opened sent k) :
    ∀ k o s, (log ++ List.replicate (D' - D) (opened, sent))[k]? = some (o, s) → Given accepted o s k := by
  intro k o s hk
  by_cases hkD : k < D
  · rw [List.getElem?_append_left (by rw [hlen]; exact hkD)] at hk
    exact hlog k o s hk
  · rw [List.getElem?_append_right (by rw [hlen]; exact Nat.le_of_not_lt hkD), List.getElem?_replicate, hlen] at hk
    split at hk
    · rename_i hlt
      obtain ⟨rfl, rfl⟩ := Prod.mk.inj (Option.some.inj hk)
      exact hnew k (Nat.le_of_not_lt hkD) (by omega)
    · cases hk

variable (reply) in
/-- An instance that began at a command was given the commands from there up to some `F`. -/
theorem answers_eq (base sent : Nat) (hs : offset accepted base ≤ sent) (n : Nat) (hn : base ≤ n)
    (hlen : n ≤ accepted.length) :
    ∃ F, base ≤ F ∧ F ≤ n ∧ offset accepted F ≤ sent ∧ (F = n ∨ sent < offset accepted (F + 1)) ∧
      Exchange.stream reply base ++
        ((List.range n).filter fun k => decide (Given accepted (offset accepted base) sent k)).flatMap
        (fun k => (reply k).encode) = Exchange.stream reply F := by
  induction n, hn using Nat.le_induction with
  | base =>
    refine ⟨base, Nat.le_refl _, Nat.le_refl _, hs, Or.inl rfl, ?_⟩
    have hnone : (List.range base).filter
        (fun k => decide (Given accepted (offset accepted base) sent k)) = [] := by
      rw [List.filter_eq_nil_iff]
      intro k hk
      have hk := List.mem_range.mp hk
      have hlt : offset accepted k < offset accepted base :=
        Nat.lt_of_lt_of_le (offset_lt (Nat.lt_of_lt_of_le hk hlen)) (offset_mono hk)
      simp only [decide_eq_true_eq]
      exact fun hg => absurd hg.1 (Nat.not_le_of_lt hlt)
    rw [hnone]; simp
  | succ n hn ih =>
    obtain ⟨F, h1, h2, h3, h4, h5⟩ := ih (Nat.le_of_succ_le hlen)
    rw [List.range_succ, List.filter_append, List.flatMap_append, ← List.append_assoc, h5]
    by_cases hg : F = n ∧ offset accepted (n + 1) ≤ sent
    · obtain ⟨rfl, hle⟩ := hg
      have hgiven : Given accepted (offset accepted base) sent F := ⟨offset_mono hn, hle⟩
      refine ⟨F + 1, Nat.le_succ_of_le hn, Nat.le_refl _, hle, Or.inl rfl, ?_⟩
      rw [Exchange.stream_succ, List.filter_cons_of_pos (by simpa using hgiven)]
      simp
    · have hbeyond : sent < offset accepted (n + 1) := by
        rcases h4 with rfl | h4
        · exact Nat.lt_of_not_le fun h => hg ⟨rfl, h⟩
        · exact Nat.lt_of_lt_of_le h4 (offset_mono (Nat.succ_le_succ h2))
      refine ⟨F, h1, Nat.le_succ_of_le h2, h3, Or.inr ?_, ?_⟩
      · rcases h4 with rfl | h4
        · exact hbeyond
        · exact h4
      · rw [List.filter_cons_of_neg
          (by simpa using fun hg : Given accepted _ sent n => absurd hg.2 (Nat.not_le_of_lt hbeyond))]
        simp

/-! ## Over a run -/

/-- The instance began at command `base`; the relay stands inside reply `D`. -/
structure Holds (identity : R → Nat) (reply : Nat → Reply) (x : Link R) (base D : Nat) (P : CmdParser)
    (p : Bytes) : Prop where
  stands : Exchange.At identity reply x.accepted
    (Exchange.stream reply base ++ x.received) x.relay.upstream.serverConn D P p [] x.relay
  base_le : base ≤ D
  opened : x.opened = offset x.accepted base
  answered : offset x.accepted D ≤ x.sent
  sent_le : x.sent ≤ (bytesOf x.accepted).length
  buffer : x.relay.upstream.serverConn.sendBuffer = (bytesOf x.accepted).drop x.sent
  closing : x.relay.upstream.serverConn.closing = false
  log_length : x.log.length = D
  log_given : ∀ k opened sent, x.log[k]? = some (opened, sent) → Given x.accepted opened sent k

def Inv (identity : R → Nat) (reply : Nat → Reply) (x : Link R) : Prop :=
  ∃ base D P p, Holds identity reply x base D P p

variable {x : Link R} {base D : Nat} {P : CmdParser} {p : Bytes}

theorem inv_start (n : Nat) (h : 0 < n) : Inv identity reply (start n h : Link R) := by
  refine ⟨0, 0, .init, [], ⟨⟨Nat.zero_le _, rfl, proper_nil (reply 0).encode_ne_nil, rfl, .start,
    Recycle.held_create n h, rfl, rfl⟩,
    Nat.le_refl _, rfl, Nat.le_refl _, Nat.le_refl _, rfl, rfl, rfl, ?_⟩⟩
  intro k opened sent hk
  cases hk

theorem inv_push (h : Inv identity reply x) (cmd : Cmd) (reader : R) :
    Inv identity reply (x.step identity (.push cmd reader)) := by
  obtain ⟨base, D, P, p, h⟩ := h
  rcases x.relay.upstream.pushRequest_cases identity cmd reader with ⟨he, _⟩ | ⟨q, he, _, hq⟩
  · simp only [step, he]
    exact ⟨base, D, P, p, h⟩
  · simp only [step, he, if_true]
    have hD := h.stands.count
    have hbytes : bytesOf (x.accepted ++ [(cmd, reader)]) = bytesOf x.accepted ++ cmd.formatRESP2 [] := by
      rw [bytesOf_append]; simp [bytesOf]
    refine ⟨base, D, P, p, ⟨Exchange.at_push h.stands cmd hq _, h.base_le, ?_, ?_, ?_, ?_, ?_,
      h.log_length, ?_⟩⟩
    · exact h.opened.trans (offset_append (Nat.le_trans h.base_le hD) _).symm
    · rw [offset_append hD]; exact h.answered
    · rw [hbytes, List.length_append]; exact Nat.le_add_right_of_le h.sent_le
    · show x.relay.upstream.serverConn.sendBuffer ++ _ = _
      rw [h.buffer, hbytes, List.drop_append_of_le_length h.sent_le]
    · show (x.relay.upstream.serverConn.closing || false) = false
      rw [h.closing, Bool.or_false]
    · intro k opened sent hk
      have hlt : k < x.log.length := (List.getElem?_eq_some_iff.mp hk).1
      rw [h.log_length] at hlt
      exact (given_append (Nat.lt_of_lt_of_le hlt hD) _).mpr (h.log_given k opened sent hk)

theorem inv_write (h : Inv identity reply x) {w : WriteResult} (hw : x.relay.upstream.serverConn.Possible w) :
    Inv identity reply (x.step identity (.write w)) := by
  obtain ⟨base, D, P, p, h⟩ := h
  obtain ⟨hbuf, _, hclosing⟩ := Connection.onWritable_keeps h.closing hw
  have hle := hw.1
  rw [h.buffer, List.length_drop] at hle
  refine ⟨base, D, P, p, ⟨{ h.stands with conn := rfl }, h.base_le, h.opened, ?_, ?_, ?_, hclosing,
    h.log_length, h.log_given⟩⟩
  · exact Nat.le_add_right_of_le h.answered
  · have := h.sent_le
    show x.sent + w.taken ≤ (bytesOf x.accepted).length
    omega
  · show (x.relay.upstream.serverConn.onWritable w).2.sendBuffer =
      (bytesOf x.accepted).drop (x.sent + w.taken)
    rw [hbuf, h.buffer, List.drop_drop]

variable (reply) in
theorem stream_length_le {j k : Nat} (h : j ≤ k) :
    (Exchange.stream reply j).length ≤ (Exchange.stream reply k).length :=
  (Exchange.stream_le h).length_le

variable (reply) in
theorem stream_length_succ (k : Nat) :
    (Exchange.stream reply k).length < (Exchange.stream reply (k + 1)).length := by
  have := List.length_pos_iff.mpr (reply k).encode_ne_nil
  rw [Exchange.stream_succ, List.length_append]
  omega

/-- What has been received says how many replies are whole. -/
theorem whole_le {s : Bytes} {j k : Nat} {w : Bytes} (hs : s = Exchange.stream reply k ++ w)
    (hw : Proper w (reply k).encode)
    (hj : Exchange.stream reply j <+: s) : j ≤ k := by
  by_contra hlt
  have h1 := stream_length_le reply (Nat.lt_of_not_le hlt)
  have h2 := hj.length_le
  have h3 := hw.length_lt
  rw [hs, List.length_append] at h2
  rw [Nat.succ_eq_add_one, Exchange.stream_succ, List.length_append] at h1
  omega

theorem whole_ge {s : Bytes} {j k : Nat} {w : Bytes} (hs : s = Exchange.stream reply k ++ w)
    (hj : s <+: Exchange.stream reply j) : k ≤ j := by
  by_contra hlt
  have h1 := stream_length_le reply (Nat.lt_of_not_le hlt)
  have h2 := hj.length_le
  have h3 := stream_length_succ reply j
  rw [hs, List.length_append] at h2
  rw [Nat.succ_eq_add_one] at h1
  omega

theorem inv_read (hsteady : ∀ k, (reply k).Steady) (h : Inv identity reply x) {chunk beyond : Bytes}
    (hans : x.received ++ chunk <+: answers reply x)
    (hroom : (x.relay.upstream.parser.inputb ++ chunk).length < 2 ^ 31) :
    Inv identity reply (x.step identity (.read chunk beyond)) := by
  obtain ⟨base, D, P, p, h⟩ := h
  have hD := h.stands.count
  have hbase := Nat.le_trans h.base_le hD
  obtain ⟨F, hF1, hF2, hF3, _, hF⟩ :=
    answers_eq reply base x.sent (Nat.le_trans (offset_mono h.base_le) h.answered)
    x.accepted.length hbase (Nat.le_refl _)
  -- what has come on this instance is a part of the replies to the commands up to `F`
  have htotal : Exchange.stream reply base ++ x.received ++ chunk <+: Exchange.stream reply F := by
    rw [← hF, List.append_assoc, List.prefix_append_right_inj, ← h.opened]
    exact hans
  obtain ⟨D', P', p', hat⟩ :=
    Exchange.stands_read hsteady h.stands beyond (htotal.trans (Exchange.stream_le hF2)) hroom
  have hrec := hat.received
  rw [List.append_nil] at hrec
  have hDF : D' ≤ F := whole_ge hrec htotal
  have hDD : D ≤ D' := by
    refine whole_le hrec hat.inside ?_
    rw [h.stands.received, List.append_assoc]
    exact List.prefix_append _ _
  have hsent : offset x.accepted D' ≤ x.sent := Nat.le_trans (offset_mono hDF) hF3
  have hnew : (x.relay.onReadable identity (chunk, beyond)).writes.length - x.relay.writes.length =
      D' - D := by
    rw [hat.writes, h.stands.writes, Exchange.length_calls hat.count, Exchange.length_calls hD]
  have hconn := hat.conn
  refine ⟨base, D', P', p', ⟨{ hat with received := ?_, conn := rfl }, Nat.le_trans h.base_le hDD, h.opened, hsent,
    h.sent_le, ?_, ?_, ?_, ?_⟩⟩
  · rw [← hat.received, List.append_assoc]
    rfl
  · exact (congrArg Connection.sendBuffer hconn).trans h.buffer
  · exact (congrArg Connection.closing hconn).trans h.closing
  · simp only [step, hnew, List.length_append, List.length_replicate, h.log_length]
    omega
  · simp only [step, hnew]
    refine given_calls h.log_length h.log_given fun k hk hk' => ⟨?_, ?_⟩
    · rw [h.opened]
      exact offset_mono (Nat.le_trans h.base_le hk)
    · exact Nat.le_trans (offset_mono hk') hsent

/-- A parser with nothing unread and nothing in the reply buffer has nothing of a reply. -/
theorem halfway_quiet {r : Reply} {resp : Bytes} (h : Halfway r p P resp) (hin : P.inputb = [])
    (hresp : resp = []) : p = [] := by
  cases h with
  | start => rfl
  | line _ _ hne => exact absurd hin hne
  | count _ _ hne => exact absurd hin hne
  | @header c w len done todo x _ _ hne =>
    obtain ⟨hc, hd⟩ := List.append_eq_nil_iff.mp hresp
    have hw : w = [] := hin
    rw [hc, hd, hw] at hne
    exact absurd rfl hne
  | payload _ _ =>
    exact absurd (List.append_eq_nil_iff.mp (List.append_eq_nil_iff.mp hresp).2).2 (itemLine_ne_nil _)

theorem inv_close (h : Inv identity reply x) (hq : Quiet x) :
    Inv identity reply (x.step identity .close) := by
  obtain ⟨base, D, P, p, h⟩ := h
  have hD := h.stands.count
  have hP := Exchange.parser_eq h.stands
  have hp : p = [] := halfway_quiet h.stands.halfway (hP ▸ hq.unread) hq.unparsed
  have hheld : x.accepted.length - x.relay.upstream.cmdQueue.held.length = D := by
    rw [h.stands.queue, List.length_map, List.length_drop]; omega
  -- the commands of the queue are what is left to write, so the next instance begins with them
  have hsent : x.sent = offset x.accepted D := by
    have hlen := congrArg List.length (h.buffer.symm.trans hq.unsent)
    rw [hheld, List.length_drop] at hlen
    have := offset_drop (k := D) x.accepted
    have := h.sent_le
    omega
  refine ⟨D, D, P, [], ⟨{ h.stands with received := ?_, inside := ?_, halfway := ?_, conn := rfl },
    Nat.le_refl _, hsent, ?_, h.sent_le, h.buffer, h.closing, h.log_length, h.log_given⟩⟩
  · simp [step]
  · exact hp ▸ h.stands.inside
  · exact hp ▸ h.stands.halfway
  · exact Nat.le_of_eq hsent.symm

theorem inv_run (hsteady : ∀ k, (reply k).Steady) (events : List (Event R)) (x : Link R)
    (h : Inv identity reply x)
    (hallowed : x.Each identity (Allowed reply) events) (hkept : x.Each identity Kept events) :
    Inv identity reply (x.run identity events) := by
  refine Runs.each_run ?_ events x h (hallowed.and hkept)
  intro x e h he
  cases e with
  | push cmd reader => exact inv_push h cmd reader
  | write w => exact inv_write h he.1
  | read chunk beyond => exact inv_read hsteady h he.1 he.2
  | close => exact inv_close h he.2

theorem sound_of_inv (h : Inv identity reply x) : Sound identity reply x := by
  obtain ⟨base, D, P, p, h⟩ := h
  have hD := h.stands.count
  refine ⟨⟨D, hD, h.stands.writes, h.stands.queue, ?_⟩, ⟨?_, h.log_given⟩,
    ⟨base, Nat.le_trans h.base_le hD, h.opened⟩, ?_⟩
  · rw [h.opened]
    exact offset_mono h.base_le
  · rw [h.log_length, h.stands.writes, Exchange.length_calls hD]
  · intro hrec
    -- the replies before this instance are all there is
    have hs := h.stands.received
    rw [hrec, List.append_nil, List.append_nil] at hs
    have hlen := congrArg List.length hs
    have hle := stream_length_le reply h.base_le
    rw [List.length_append] at hlen
    have hp : p = [] := List.eq_nil_of_length_eq_zero (by omega)
    obtain ⟨hP, hresp⟩ := halfway_nil (hp ▸ h.stands.halfway)
    refine ⟨?_, hresp⟩
    rw [h.stands.parser, hP]
    rfl

def twoReplies (k : Nat) : Reply := if k = 0 then .bulk [97] else .bulk [98]

theorem steady_twoReplies (k : Nat) : (twoReplies k).Steady := by
  unfold twoReplies
  split <;> exact ⟨by decide, by decide⟩

/-- The close comes when `PING` has been answered and nothing of `GET k` is written. -/
def laterEvents : List (Event Nat) :=
  [.push [[80, 73, 78, 71]] 0, .write (.wrote 14), .read [36, 49, 13, 10, 97, 13, 10] [],
    .push [[71, 69, 84], [107]] 1, .close,
    .write (.wrote 20), .read [36, 49, 13, 10, 98, 13, 10] []]

/-- The close comes when three bytes of `PING` are written. -/
def crossEvents : List (Event Nat) :=
  [.push [[80, 73, 78, 71]] 0, .write (.wrote 3), .close, .push [[71, 69, 84], [107]] 1, .write (.wrote 31),
    .read [36, 49, 13, 10, 98, 13, 10] []]

end Link

end RedisProxy.Server
