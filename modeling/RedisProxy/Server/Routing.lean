/-
  RedisProxy.Server.Routing — which reader gets which reply.

  Runs of pushes and reads on one upstream connection (`Event`, `run`). The upstream
  answers the accepted commands in order, the k-th with `reply k`; what has been received
  is a prefix of the answers to what has been accepted (`Answering`). Nothing is assumed
  about where the chunks end.

  The position is the number `D` of replies received whole and the part `p` of the next
  one (`Mid`): the queue holds the readers from the `D`-th on, and the parser with the
  reply buffer stands halfway through reply `D` (`Wire.Halfway`).

  Proved: `routing`, over every run in which fewer than 2^31 bytes are unread at each
  read (`Room`): the first `D` readers have got their reply, once and whole, no other
  call was made, and the send buffer is the accepted commands in order. A refused push
  changes nothing. Beyond that size `Buffer::Offset` loses bytes (`routing_fails`).
-/

import RedisProxy.Lib.Runs
import RedisProxy.Server.Upstream
import RedisProxy.Wire.Answer

namespace RedisProxy.Server

open Lib Lib.Decimal Lib.Pieces Wire Net

variable {R : Type} (identity : R → Nat) (reply : Nat → Reply)

/-! ## Runs -/

inductive Event (R : Type) where
  | push (cmd : Cmd) (reader : R)
  | read (chunk beyond : Bytes)

/-- The relay, the pushes it accepted and the bytes it received. -/
structure Exchange (R : Type) where
  relay : Relay R
  accepted : List (Cmd × R)
  received : Bytes

namespace Exchange

def start (n : Nat) (h : 0 < n) : Exchange R := ⟨⟨.start n h, []⟩, [], []⟩

def step (x : Exchange R) : Event R → Exchange R
  | .push cmd reader =>
    { x with relay := { x.relay with upstream := (x.relay.upstream.pushRequest identity cmd reader).2 },
             accepted :=
               if (x.relay.upstream.pushRequest identity cmd reader).1 = .ok then x.accepted ++ [(cmd, reader)]
               else x.accepted }
  | .read chunk beyond =>
    { x with relay := x.relay.onReadable identity (chunk, beyond), received := x.received ++ chunk }

def run (x : Exchange R) (events : List (Event R)) : Exchange R := events.foldl (step identity) x

/-- `P` of the state before every event of the run, and the event. -/
def Each (P : Exchange R → Event R → Prop) (x : Exchange R) (events : List (Event R)) : Prop :=
  Runs.Each (step identity) P x events

/-- The first `k` replies. -/
def stream (k : Nat) : Bytes := (List.range k).flatMap fun i => (reply i).encode

/-- What is received answers what was accepted. -/
def Answering (x : Exchange R) : Event R → Prop
  | .push _ _ => True
  | .read chunk _ => x.received ++ chunk <+: stream reply x.accepted.length

/-- Fewer than 2^31 bytes are unread when a read is handled. -/
def Room (x : Exchange R) : Event R → Prop
  | .push _ _ => True
  | .read chunk _ => (x.relay.upstream.parser.inputb ++ chunk).length < 2 ^ 31

/-- One call for each of these pushes, with its reply. -/
def calls (accepted : List (Cmd × R)) : List (R × Bytes) :=
  accepted.zipIdx.map fun a => (a.1.2, (reply a.2).encode)

/-- The calls are those for the replies received whole; the bytes sent are the commands. -/
structure Routed (x : Exchange R) : Prop where
  calls : ∃ D p, D ≤ x.accepted.length ∧ x.received = stream reply D ++ p ∧ Proper p (reply D).encode ∧
    x.relay.writes = calls reply (x.accepted.take D)
  sent : x.relay.upstream.serverConn.sendBuffer = x.accepted.flatMap fun a => a.1.formatRESP2 []
  refused : ∀ cmd reader, (x.relay.upstream.pushRequest identity cmd reader).1 ≠ .ok →
    x.relay.upstream.pushRequest identity cmd reader = (.tryAgain, x.relay.upstream)

/-! ## Where the relay stands -/

/-- Inside reply `D`: `p` of it is behind the parser `P`, `a` has come since. -/
structure At (accepted : List (Cmd × R)) (received : Bytes) (conn : Connection) (D : Nat)
    (P : CmdParser) (p a : Bytes) (s : Relay R) : Prop where
  count : D ≤ accepted.length
  received : received = stream reply D ++ (p ++ a)
  inside : Proper p (reply D).encode
  parser : s.upstream.parser = P.feed a
  halfway : Halfway (reply D) p P s.upstream.respBuffer
  queue : s.upstream.cmdQueue.held = (accepted.drop D).map fun a => ⟨identity a.2, some a.2⟩
  writes : s.writes = calls reply (accepted.take D)
  conn : s.upstream.serverConn = conn

/-- At the head of the loop. -/
def Mid (accepted : List (Cmd × R)) (received : Bytes) (conn : Connection) (s : Relay R) : Prop :=
  ∃ D P p a, At identity reply accepted received conn D P p a s ∧ (P.inputb ++ a).length < 2 ^ 31

/-- Between events. -/
def Stands (accepted : List (Cmd × R)) (received : Bytes) (conn : Connection) (s : Relay R) : Prop :=
  ∃ D P p, At identity reply accepted received conn D P p [] s

variable {identity reply} {accepted : List (Cmd × R)} {received : Bytes} {conn : Connection} {D : Nat}
  {P : CmdParser} {p a : Bytes}
  {s : Relay R} {beyond : Bytes}

/-- Between events. -/
theorem At.bytes (h : At identity reply accepted received conn D P p [] s) : received = stream reply D ++ p := by
  rw [h.received, List.append_nil]

theorem stream_succ (k : Nat) : stream reply (k + 1) = stream reply k ++ (reply k).encode := by
  simp [stream, List.range_succ]

theorem stream_le {j k : Nat} (h : j ≤ k) : stream reply j <+: stream reply k := by
  obtain ⟨d, rfl⟩ := Nat.exists_eq_add_of_le h
  induction d with
  | zero => exact List.prefix_refl _
  | succ d ih =>
    rw [← Nat.add_assoc, stream_succ]
    exact (ih (Nat.le_add_right j d)).trans (List.prefix_append _ _)

theorem calls_succ (h : D < accepted.length) :
    calls reply (accepted.take (D + 1)) =
      calls reply (accepted.take D) ++ [((accepted.get ⟨D, h⟩).2, (reply D).encode)] := by
  have htake : accepted.take (D + 1) = accepted.take D ++ [accepted.get ⟨D, h⟩] := by
    rw [List.take_succ_eq_append_getElem h]; rfl
  rw [htake, calls, calls, List.zipIdx_append, List.map_append]
  simp [Nat.min_eq_left (Nat.le_of_lt h)]

theorem length_calls {k : Nat} (h : k ≤ accepted.length) : (calls reply (accepted.take k)).length = k := by
  rw [calls, List.length_map, List.length_zipIdx, List.length_take, Nat.min_eq_left h]

/-- The bytes before the loop end inside reply `D`, or complete it. -/
theorem inside_or_whole (h : At identity reply accepted received conn D P p a s)
    (hans : received <+: stream reply accepted.length)
    (h0 : s.upstream.parser.inputb ≠ []) :
    D < accepted.length ∧ (Proper (p ++ a) (reply D).encode ∨ ∃ t rest, a = t ++ rest ∧
      p ++ t = (reply D).encode) := by
  rw [h.received] at hans
  have hD : D < accepted.length := by
    refine Nat.lt_of_le_of_ne h.count fun e => h0 ?_
    -- nothing more may come after the last reply
    rw [← e] at hans
    have hlen := hans.length_le
    rw [List.length_append] at hlen
    have hnil : p ++ a = [] := List.eq_nil_of_length_eq_zero (by omega)
    obtain ⟨rfl, rfl⟩ := List.append_eq_nil_iff.mp hnil
    rw [h.parser, (halfway_nil h.halfway).1]
    rfl
  refine ⟨hD, ?_⟩
  obtain ⟨rest, hrest⟩ : stream reply (D + 1) <+: stream reply accepted.length :=
    stream_le (Nat.succ_le_of_lt hD)
  rw [← hrest, stream_succ, List.append_assoc, List.prefix_append_right_inj] at hans
  rcases List.prefix_or_prefix_of_prefix hans (List.prefix_append _ rest) with hpre | ⟨r', hr'⟩
  · by_cases he : p ++ a = (reply D).encode
    · exact Or.inr ⟨a, [], by simp, he⟩
    · exact Or.inl (proper_of_ne hpre he)
  · obtain ⟨t, _, ht⟩ := h.inside
    rw [ht, List.append_assoc, List.append_cancel_left_eq] at hr'
    exact Or.inr ⟨t, r', hr'.symm, ht.symm⟩

theorem mid_round (hsteady : ∀ k, (reply k).Steady) (hans : received <+: stream reply accepted.length) :
    Relay.Round identity beyond (Mid identity reply accepted received conn)
      (Stands identity reply accepted received conn) where
  drained s h h0 := by
    obtain ⟨D, P, p, a, hat, _⟩ := h
    obtain ⟨_, rfl⟩ : P.inputb = [] ∧ a = [] := by
      rw [hat.parser] at h0; exact List.append_eq_nil_iff.mp h0
    exact ⟨D, P, p, hat⟩
  waits s h h0 he := by
    obtain ⟨D, P, p, a, hat, hroom⟩ := h
    have hin : P.inputb ++ a ≠ [] := by rw [hat.parser] at h0; exact h0
    unfold Relay.parseResponse at he ⊢
    rw [hat.parser] at he ⊢
    rcases (inside_or_whole hat hans h0).2 with hp | ⟨t, rest, rfl, ht⟩
    · have hw : Waiting (reply D) (p ++ a)
          (CmdParser.parseResponse beyond (P.feed a) s.upstream.respBuffer) :=
        parseResponse_part (hsteady D) hat.halfway hin hroom hp
      refine ⟨D, _, p ++ a, ⟨hat.count, by rw [List.append_nil]; exact hat.received, hp, ?_, hw.pos,
        hat.queue, hat.writes, hat.conn⟩⟩
      simp [CmdParser.feed]
    · rw [← List.append_assoc, List.length_append] at hroom
      obtain ⟨type, m, hres⟩ : Answers (reply D) rest
          (CmdParser.parseResponse beyond (P.feed (t ++ rest)) s.upstream.respBuffer) :=
        parseResponse_whole (hsteady D) hat.halfway (Nat.lt_of_le_of_lt (Nat.le_add_right _ _) hroom) ht
      rw [hres] at he
      exact absurd rfl he
  unasked s h h0 _ hq := by
    obtain ⟨D, P, p, a, hat, _⟩ := h
    have hD := (inside_or_whole hat hans h0).1
    rw [hat.queue] at hq
    have := congrArg List.length hq
    rw [List.length_map, List.length_drop] at this
    simp at this
    omega
  answers s pair q h h0 he hq := by
    obtain ⟨D, P, p, a, hat, hroom⟩ := h
    have hin : P.inputb ++ a ≠ [] := by rw [hat.parser] at h0; exact h0
    obtain ⟨hD, hcase⟩ := inside_or_whole hat hans h0
    unfold Relay.parseResponse at he ⊢
    rw [hat.parser] at he ⊢
    rcases hcase with hp | ⟨t, rest, rfl, ht⟩
    · have hw : Waiting (reply D) (p ++ a)
          (CmdParser.parseResponse beyond (P.feed a) s.upstream.respBuffer) :=
        parseResponse_part (hsteady D) hat.halfway hin hroom hp
      exact absurd he hw.err
    · rw [← List.append_assoc, List.length_append] at hroom
      obtain ⟨type, m, hres⟩ : Answers (reply D) rest
          (CmdParser.parseResponse beyond (P.feed (t ++ rest)) s.upstream.respBuffer) :=
        parseResponse_whole (hsteady D) hat.halfway (Nat.lt_of_le_of_lt (Nat.le_add_right _ _) hroom) ht
      have hqueue := hat.queue
      rw [hq, List.drop_eq_getElem_cons hD, List.map_cons] at hqueue
      obtain ⟨hpair, hheld⟩ := List.cons.inj hqueue
      refine ⟨D + 1, .init, [], rest,
        ⟨hD, ?_, proper_nil (reply (D + 1)).encode_ne_nil, ?_, ?_, hheld, ?_, hat.conn⟩, ?_⟩
      · rw [hat.received, stream_succ, ← ht]; simp
      · simp only [Relay.answer, hres]
        rfl
      · exact .start
      · simp only [Relay.answer, hres]
        rw [hat.writes, calls_succ hD, hpair]
        simp [Relay.callFor]
      · show ([] ++ rest : Bytes).length < 2 ^ 31
        rw [List.nil_append]
        omega

theorem parser_eq (h : At identity reply accepted received conn D P p [] s) : s.upstream.parser = P := by
  rw [h.parser, CmdParser.feed, List.append_nil]

theorem stands_read (hsteady : ∀ k, (reply k).Steady) {chunk : Bytes}
    (h : At identity reply accepted received conn D P p [] s) (beyond : Bytes)
    (hans : received ++ chunk <+: stream reply accepted.length)
    (hroom : (s.upstream.parser.inputb ++ chunk).length < 2 ^ 31) :
    Stands identity reply accepted (received ++ chunk) conn (s.onReadable identity (chunk, beyond)) := by
  have hP := parser_eq h
  refine Relay.onServerRead_rule (mid_round hsteady hans)
    ⟨D, P, p, chunk, ⟨h.count, ?_, h.inside, ?_, h.halfway, h.queue, h.writes, h.conn⟩, ?_⟩
  · rw [h.received]; simp
  · rw [hP]
  · rw [← hP]; exact hroom

/-! ## Over a run -/

/-- Between events the relay stands inside a reply, and the connection holds the commands. -/
structure Inv (identity : R → Nat) (reply : Nat → Reply) (x : Exchange R) : Prop where
  stands : Stands identity reply x.accepted x.received x.relay.upstream.serverConn x.relay
  connected : x.relay.upstream.serverConn.connected = true
  sent : x.relay.upstream.serverConn.sendBuffer = x.accepted.flatMap fun a => a.1.formatRESP2 []

theorem inv_start (n : Nat) (h : 0 < n) : Inv identity reply (start n h : Exchange R) where
  stands := ⟨0, .init, [], ⟨Nat.zero_le _, rfl, proper_nil (reply 0).encode_ne_nil, rfl, .start,
    Recycle.held_create n h, rfl, rfl⟩⟩
  connected := rfl
  sent := rfl

/-- An accepted push adds its entry behind the others. -/
theorem at_push (h : At identity reply accepted received conn D P p a s) (cmd : Cmd) {reader : R}
    {q : Recycle (ReaderPair R)}
    (hq : q.held = s.upstream.cmdQueue.held ++ [⟨identity reader, some reader⟩]) (conn' : Connection) :
    At identity reply (accepted ++ [(cmd, reader)]) received conn' D P p a
      { s with upstream := { s.upstream with cmdQueue := q, serverConn := conn' } } where
  count := by rw [List.length_append]; exact Nat.le_add_right_of_le h.count
  received := h.received
  inside := h.inside
  parser := h.parser
  halfway := h.halfway
  queue := by
    show q.held = _
    rw [hq, h.queue, List.drop_append_of_le_length h.count, List.map_append, List.map_singleton]
  writes := by
    show s.writes = _
    rw [h.writes, List.take_append_of_le_length h.count]
  conn := rfl

theorem inv_push {x : Exchange R} (h : Inv identity reply x) (cmd : Cmd) (reader : R) :
    Inv identity reply (x.step identity (.push cmd reader)) := by
  rcases x.relay.upstream.pushRequest_cases identity cmd reader with ⟨he, _⟩ | ⟨q, he, _, hq⟩
  · simp only [step, he]
    exact h
  · simp only [step, he, if_true]
    obtain ⟨D, P, p, hat⟩ := h.stands
    refine ⟨⟨D, P, p, at_push hat cmd hq _⟩, h.connected, ?_⟩
    simp [Connection.writeToBuffer, Connection.setWritable, h.sent]

theorem inv_read {x : Exchange R} (hsteady : ∀ k, (reply k).Steady) (h : Inv identity reply x)
    (chunk beyond : Bytes)
    (hans : Answering reply x (.read chunk beyond)) (hroom : Room x (.read chunk beyond)) :
    Inv identity reply (x.step identity (.read chunk beyond)) := by
  obtain ⟨D, P, p, hat⟩ := h.stands
  obtain ⟨D', P', p', hat'⟩ := stands_read hsteady hat beyond hans hroom
  have hconn := hat'.conn
  exact ⟨⟨D', P', p', { hat' with conn := rfl }⟩, (congrArg Connection.connected hconn).trans h.connected,
    (congrArg Connection.sendBuffer hconn).trans h.sent⟩

theorem inv_run (hsteady : ∀ k, (reply k).Steady) (events : List (Event R)) (x : Exchange R)
    (h : Inv identity reply x)
    (hans : x.Each identity (Answering reply) events) (hroom : x.Each identity Room events) :
    Inv identity reply (x.run identity events) := by
  refine Runs.each_run ?_ events x h (hans.and hroom)
  intro x e h he
  cases e with
  | push cmd reader => exact inv_push h cmd reader
  | read chunk beyond => exact inv_read hsteady h chunk beyond he.1 he.2

theorem routed_of_inv {x : Exchange R} (h : Inv identity reply x) : Routed identity reply x where
  calls := by
    obtain ⟨D, P, p, hat⟩ := h.stands
    exact ⟨D, p, hat.count, hat.bytes, hat.inside, hat.writes⟩
  sent := h.sent
  refused cmd reader he := by
    rcases x.relay.upstream.pushRequest_cases identity cmd reader with ⟨ht, _⟩ | ⟨q, hok, _⟩
    · exact ht
    · rw [hok] at he; exact absurd rfl he

/-- Two readers, the replies cut inside the first one's line end. -/
def twoEvents : List (Event Nat) :=
  [.push [[80, 73, 78, 71]] 1, .push [[71, 69, 84], [107]] 2, .read [36, 49, 13, 10, 97, 13] [],
    .read [10, 36, 49, 13, 10, 97, 13, 10] []]

/-- An array of a bulk string of 2^31 - 3 bytes and of `ab`. -/
def lostReply : Reply := .array [.bulk (List.replicate 2147483645 120), .bulk [97, 98]]

def lostHead : Bytes := [42, 50, 13, 10, 36, 50, 49, 52, 55, 52, 56, 51, 54, 52, 53, 13, 10]

def lostTail : Bytes := [13, 10, 36, 50, 13, 10, 97, 98, 13, 10]

def lostEvents : List (Event Unit) :=
  [.push [[80, 73, 78, 71]] (), .read lostHead [], .read (List.replicate 2147483645 120) [],
    .read lostTail []]

section Lost

variable {big : Bytes}

theorem lost_encode (h : big.length = 2147483645) :
    (Reply.array [.bulk big, .bulk [97, 98]]).encode = lostHead ++ (big ++ lostTail) := by
  have h1 : numLine 42 (2 : Nat) ++ numLine 36 (2147483645 : Nat) = lostHead := by decide
  have h2 : crlf ++ encodeArg [97, 98] = lostTail := by decide
  have h3 : [Reply.bulk big, .bulk [97, 98]].length = 2 := rfl
  rw [Reply.encode, Reply.encodeAll, Reply.encodeAll, Reply.encodeAll, Reply.encode, Reply.encode, h3,
    ← h1, ← h2, encodeArg, header, h]
  simp

/-- The parser inside the first bulk string. -/
def lostParser (unread : Bytes) : CmdParser := ⟨.multibulk, ⟨2, 0, 2147483645⟩, unread, 0⟩

theorem lost_resume (r : BufferReader) : MultibulkParser.handleResponse [] ⟨2, 0, 2147483645⟩ lostHead r =
    MultibulkParser.responseLoop [] 2 ⟨2, 0, 2147483645⟩ lostHead r :=
  MultibulkParser.handleResponse_resume [] lostHead (show (2 : Int).toNat = 0 + 2 by decide)
    (by decide) 2147483645 r

theorem lost_item (h : big.length = 2147483645) :
    (Reply.bulk big).IsItem ∧ (2147483645 : Int) = (Reply.bulk big).itemLen ∧ big ≠ [] := by
  refine ⟨⟨?_, by rw [h]; decide⟩, by rw [Reply.itemLen, h]; rfl, ?_⟩
  · rintro rfl; cases h
  · rintro rfl; cases h

theorem lost_wait (h : big.length = 2147483645) :
    CmdParser.parseResponse [] (lostParser big) lostHead = (.tryAgain, lostParser big, lostHead) := by
  obtain ⟨hx, hb, h0⟩ := lost_item h
  have hr : MultibulkParser.responseLoop [] 2 ⟨2, 0, 2147483645⟩ lostHead (.after [] big) =
      (.tryAgain, ⟨2, 0, 2147483645⟩, lostHead, .after [] big) :=
    MultibulkParser.responseLoop_body_wait hx.element hb ⟨crlf, by decide, rfl⟩ 1
  exact CmdParser.parseResponse_multibulk [] big (Or.inl rfl) h0 (by decide) rfl ((lost_resume _).trans hr)

/-- Nothing can be read behind the 2^31st byte. -/
theorem read_far {pre rest q : Bytes} {n : Nat} (h : 2 ^ 31 ≤ pre.length) (h0 : n ≠ 0)
    (hn : n ≤ rest.length) :
    (BufferReader.after pre rest).read q n = (.outOfBound, q, .after pre rest) := by
  have he : (BufferReader.after pre rest).eof = false := by
    rw [BufferReader.eof_after]
    cases rest with
    | nil => simp at hn; exact absurd hn h0
    | cons b s => rfl
  have hl : ¬ (BufferReader.after pre rest).buffer.length - (BufferReader.after pre rest).offset < n := by
    simp only [BufferReader.after_buffer, BufferReader.after_offset, List.length_append]
    omega
  have ha : Buffer.append q [] n = (.outOfBound, q) := by
    rw [Buffer.append, if_neg h0, if_pos (show ([] : Bytes).length < n from Nat.pos_of_ne_zero h0)]
  rw [BufferReader.read, he, if_neg (by decide), if_neg hl, BufferReader.take,
    BufferReader.rest_far (by omega), ha]

/-- The second bulk string's header is read past the 2^31st byte: nothing can be read
    behind it, and the rest of the input is dropped. -/
theorem lost_end (h : big.length = 2147483645) :
    CmdParser.parseResponse [] (lostParser (big ++ lostTail)) lostHead =
      (.tryAgain, ⟨.multibulk, ⟨2, 1, 2⟩, [], 0⟩, lostHead ++ (big ++ crlf) ++ [36, 50, 13, 10]) := by
  obtain ⟨hx, hb, h0⟩ := lost_item h
  have hpre : (big ++ crlf).length = 2147483647 := by rw [List.length_append, h]; rfl
  -- the bulk string, then the line behind it
  have hbody : MultibulkParser.responseLoop [] 2 ⟨2, 0, 2147483645⟩ lostHead (.after [] (big ++ lostTail)) =
      MultibulkParser.responseLoop [] 1 ⟨2, 1, 0⟩ (lostHead ++ (big ++ crlf))
        (.after (big ++ crlf) [36, 50, 13, 10, 97, 98, 13, 10]) := by
    have hi : big ++ lostTail = (Reply.bulk big).itemBody ++ [36, 50, 13, 10, 97, 98, 13, 10] := by
      simp [Reply.itemBody, lostTail, crlf, CR, LF]
    rw [hi]
    exact MultibulkParser.responseLoop_body hx.element (by decide) (by simp [Reply.itemBody, crlf]) hb 1 _
  have hline : MultibulkParser.readLen [] 0 (.after (big ++ crlf) [36, 50, 13, 10, 97, 98, 13, 10])
    (some (lostHead ++ (big ++ crlf))) =
      (.ok, 2, some (lostHead ++ (big ++ crlf) ++ [36, 50, 13, 10]),
        .after (big ++ crlf ++ [36, 50, 13, 10]) [97, 98, 13, 10]) :=
    MultibulkParser.readLen_line [] (by rw [hpre]; decide) (show LF ∉ [36, 50, 13] by decide)
      [97, 98, 13, 10] _
  have hfar : (BufferReader.after (big ++ crlf ++ [36, 50, 13, 10]) [97, 98, 13, 10]).read
      (lostHead ++ (big ++ crlf) ++ [36, 50, 13, 10]) (MultibulkParser.readSize 2) =
      (.outOfBound, lostHead ++ (big ++ crlf) ++ [36, 50, 13, 10],
        .after (big ++ crlf ++ [36, 50, 13, 10]) [97, 98, 13, 10]) :=
    read_far (by rw [List.length_append, hpre]; decide) (by decide) (by decide)
  have hwait : MultibulkParser.responseLoop [] 1 ⟨2, 1, 0⟩ (lostHead ++ (big ++ crlf))
    (.after (big ++ crlf) [36, 50, 13, 10, 97, 98, 13, 10]) =
      (.tryAgain, ⟨2, 1, 2⟩, lostHead ++ (big ++ crlf) ++ [36, 50, 13, 10],
        .after (big ++ crlf ++ [36, 50, 13, 10]) [97, 98, 13, 10]) :=
    MultibulkParser.responseLoop_wait 0 (by decide) hline hfar
  have hr := (lost_resume (.after [] (big ++ lostTail))).trans (hbody.trans hwait)
  rw [lostParser, CmdParser.parseResponse_handle _ _ (Or.inl rfl) (by simp [lostTail]), hr]
  have hoff : (big ++ crlf ++ [36, 50, 13, 10]).length = 2147483651 := by rw [List.length_append, hpre]; rfl
  rw [CmdParser.handOver, BufferReader.after_offset, hoff,
    if_neg (show ¬ (0 : Nat) = 2147483651 by decide), Buffer.offset,
    if_neg (by decide)]

/-- A read that leaves the parser waiting. -/
theorem onReadable_waits {s : Relay R} {chunk : Bytes × Bytes} {P' : CmdParser} {resp' : Bytes}
    (h0 : s.upstream.parser.inputb ++ chunk.1 ≠ [])
    (hp : CmdParser.parseResponse chunk.2 (s.upstream.parser.feed chunk.1) s.upstream.respBuffer =
      (.tryAgain, P', resp')) :
    s.onReadable identity chunk =
      { s with upstream := { s.upstream with parser := P', respBuffer := resp' } } := by
  obtain ⟨k, hk⟩ : ∃ k, s.upstream.cmdQueue.holder.length = k + 1 :=
    ⟨_, (Nat.succ_pred_eq_of_pos (Nat.lt_of_le_of_lt (Nat.zero_le _) s.upstream.cmdQueue.start_lt)).symm⟩
  have h0' : (s.upstream.parser.feed chunk.1).inputb ≠ [] := h0
  rw [Relay.onReadable, Relay.onServerRead]
  simp only [hk, Relay.readLoop, Relay.parseResponse, h0', if_false, hp]

/-- One push accepted, no call made. -/
structure Quiet (x : Exchange Unit) (P : CmdParser) (resp received : Bytes) : Prop where
  parser : x.relay.upstream.parser = P
  resp : x.relay.upstream.respBuffer = resp
  writes : x.relay.writes = []
  accepted : x.accepted.length = 1
  received : x.received = received

theorem quiet_read {x : Exchange Unit} {P P' : CmdParser} {resp resp' received chunk : Bytes}
    (h : Quiet x P resp received)
    (h0 : P.inputb ++ chunk ≠ [])
    (hp : CmdParser.parseResponse [] (P.feed chunk) resp = (.tryAgain, P', resp')) :
    Quiet (x.step (fun _ => 1) (.read chunk [])) P' resp' (received ++ chunk) := by
  have hr : x.relay.onReadable (fun _ => 1) (chunk, []) =
      { x.relay with upstream := { x.relay.upstream with parser := P', respBuffer := resp' } } :=
    onReadable_waits (by rw [h.parser]; exact h0) (by rw [h.parser, h.resp]; exact hp)
  simp only [step, hr]
  exact ⟨rfl, rfl, h.writes, h.accepted, by rw [h.received]⟩

end Lost

end Exchange

end RedisProxy.Server
