/-
  RedisProxy.Server.Intake — the upstream's input buffer over the heap (`Event::Read` of
  netio.cpp, `OnReadable` of connections.cpp, `OnServerRead` of upstream.cpp).

  `Read` reads as much as there is room for. Without room it switches the connection's
  readability off, and nothing switches it on again. `OnServerRead` makes room when its loop
  has come to its end; an early return leaves what there is.

  A reader's `OnServerWrite` copies the reply's bytes to a buffer of its own.

  Proved: `readLoop_view`, the loop does on the bytes what `Server.Relay` says; and
  `readable_has_room`: as long as no read that fills the buffer ends at an edge of a reply
  (`Wire.Edge`), there is room for the next one.
-/

import RedisProxy.Mem.Replies
import RedisProxy.Server.Routing
import RedisProxy.Wire.Edge

namespace RedisProxy.Server

open Lib Lib.Runs Lib.Decimal Lib.Pieces Wire Net

structure Intake (R : Type) where
  heap : Mem.Heap
  parser : Mem.CmdParser
  respBuffer : Mem.Buffer
  cmdQueue : Recycle (ReaderPair R)
  serverConn : Connection
  /-- The `OnServerWrite` calls made. -/
  writes : List (R × Bytes)
  /-- The connection is watched for input. -/
  readable : Bool

variable {R : Type} (identity : R → Nat)

namespace Intake

/-- After `Init` without a password; `n` is `ConnSendBufferCount`, `initSize`
    `ReadBufferInitSize`. -/
def start (h : Mem.Heap) (n : Nat) (hn : 0 < n) (initSize : Nat) : Intake R :=
  let (_, h, b) := Mem.Buffer.null.appendCapacity h initSize
  ⟨h, { Mem.CmdParser.init with inputb := b }, .null, .create n hn, .opened, [], true⟩

def pushRequest (s : Intake R) (cmd : Cmd) (reader : R) : Error × Intake R :=
  if s.serverConn.connected = false then (.tryAgain, s)
  else
    match s.cmdQueue.push ⟨identity reader, some reader⟩ with
    | .error .full => (.tryAgain, s)
    | .error e => (e, s)
    | .ok q =>
      (.ok, { s with cmdQueue := q, serverConn := s.serverConn.writeToBuffer (cmd.formatRESP2 []) false })

/-- The free space of the input. -/
def freeSize (s : Intake R) : Nat := s.parser.inputb.freeSize s.heap

/-- `Event::Read` to the input's tail; `chunk` is what `read` brings. -/
def read (s : Intake R) (chunk : Bytes) : Error × Intake R :=
  if s.freeSize = 0 then (.full, { s with readable := false })
  else
    let h := s.parser.inputb.writeTail s.heap chunk
    let (e, b) := s.parser.inputb.appendSize h chunk.length
    (e, { s with heap := h, parser := { s.parser with inputb := b } })

/-- A reply call has been made. -/
def parsed (s : Intake R) (h : Mem.Heap) (p : Mem.CmdParser) (resp : Mem.Buffer) : Intake R :=
  { s with heap := h, parser := p, respBuffer := resp }

/-- The end of a round: the entry popped, its reader called, parser and buffer cleared. -/
def answer (s : Intake R) (pair : ReaderPair R) (q : Recycle (ReaderPair R)) : Intake R :=
  let (h, resp) := s.respBuffer.clear s.heap
  { s with heap := h, parser := s.parser.reset, respBuffer := resp, cmdQueue := q,
           writes := s.writes ++ Relay.callFor identity pair (s.respBuffer.contents s.heap) }

/-- The loop of `OnServerRead`; `far` is what lies behind the input's block. -/
def readLoop (far : Bytes) : Nat → Intake R → Error × Intake R
  | 0, s => (.ok, s)
  | n + 1, s =>
    if s.parser.inputb.used = 0 then (.ok, s)
    else
      match s.parser.parseResponse far s.heap s.respBuffer with
      | (.ok, h, p, resp) =>
        match s.cmdQueue.pop with
        | .ok (pair, q) => readLoop far n ((s.parsed h p resp).answer identity pair q)
        | .error e => (e, s.parsed h p resp)
      | (.tryAgain, h, p, resp) => (.ok, s.parsed h p resp)
      | (e, h, p, resp) => (e, s.parsed h p resp)

/-- The end of `OnServerRead`; `minSize` is `ReadBufferMinSize`. -/
def makeRoom (minSize : Nat) (s : Intake R) : Error × Intake R :=
  if s.freeSize < minSize then
    let (e, h, b) := s.parser.inputb.appendCapacity s.heap minSize
    (e, { s with heap := h, parser := { s.parser with inputb := b } })
  else (.ok, s)

def onServerRead (minSize : Nat) (far : Bytes) (s : Intake R) : Error × Intake R :=
  match readLoop identity far s.cmdQueue.holder.length s with
  | (.ok, s) => s.makeRoom minSize
  | (e, s) => (e, s)

/-- The handler runs also when the buffer was full. -/
def onReadable (minSize : Nat) (far : Bytes) (s : Intake R) (chunk : Bytes) : Intake R :=
  match s.read chunk with
  | (.ok, s) => (onServerRead identity minSize far s).2
  | (.full, s) => (onServerRead identity minSize far s).2
  | (_, s) => s

/-- What `Server.Relay` has of it. -/
def view (s : Intake R) : Relay R :=
  ⟨⟨s.serverConn, s.respBuffer.contents s.heap, s.parser.view s.heap, true, s.cmdQueue⟩, s.writes⟩

/-- The part that a reply call works on. -/
def replies (s : Intake R) : Mem.Replies := ⟨s.heap, s.parser, s.respBuffer, []⟩

variable {identity} {s s' : Intake R}

/-- The input, and the reply made of it. -/
theorem input_sound (hk : s.replies.Kept []) : Mem.Sound s.heap [s.parser.inputb, s.respBuffer] :=
  Mem.sound_swap hk.between.reading.sound

theorem input_length (hk : s.replies.Kept []) : s.view.upstream.parser.inputb.length = s.parser.inputb.used :=
  Mem.length_contents (input_sound hk)

theorem freeSize_eq (hk : s.replies.Kept []) : s.freeSize = s.parser.inputb.capacity s.heap - s.parser.inputb.size :=
  Mem.sound_freeSize (input_sound hk)

/-! ## The loop -/

/-- What the loop leaves: `w` is what `Relay` says. -/
structure Looped (s : Intake R) (w : Error × Relay R) (r : Error × Intake R) : Prop where
  err : r.1 = w.1
  view : r.2.view = w.2
  /-- Without an entry for it, a reply stays in `respBuffer_`. -/
  kept : r.1 ≠ .empty → r.2.replies.Kept []
  size : r.2.parser.inputb.size = s.parser.inputb.size
  capacity : r.2.parser.inputb.capacity r.2.heap = s.parser.inputb.capacity s.heap
  used : r.2.parser.inputb.used ≤ s.parser.inputb.used
  readable : r.2.readable = s.readable

/-- What one reply call leaves; `r` is what it returns, `beyond` what it reads on to. -/
structure AfterParse (s : Intake R) (beyond far : Bytes) (e : Error) (t : Intake R) : Prop where
  relay : s.view.parseResponse beyond = (e, t.view)
  sound : Mem.Sound t.heap [t.respBuffer, t.parser.inputb]
  waits : e ≠ .ok → t.replies.Kept []
  cleared : e = .ok → ∀ (identity : R → Nat) pair q, (t.answer identity pair q).replies.Kept []
  size : t.parser.inputb.size = s.parser.inputb.size
  capacity : t.parser.inputb.capacity t.heap = s.parser.inputb.capacity s.heap
  used : t.parser.inputb.used ≤ s.parser.inputb.used
  behind : t.parser.inputb.behind t.heap far = beyond

theorem after_parse (hk : s.replies.Kept []) (far : Bytes) :
    let r := s.parser.parseResponse far s.heap s.respBuffer
    AfterParse s (s.parser.inputb.behind s.heap far) far r.1 (s.parsed r.2.1 r.2.2.1 r.2.2.2) := by
  have hp := Mem.CmdParser.parseResponse_view hk.between far
  have hstep := (Mem.Replies.step_parse hk far).1
  dsimp only
  rcases hx : s.parser.parseResponse far s.heap s.respBuffer with ⟨e, h, p, resp⟩
  have hp : Mem.CmdParser.Parsed s.heap s.parser [] _ (s.parser.parseResponse far s.heap s.respBuffer) := hp
  rw [hx] at hp
  unfold Mem.Replies.step at hstep
  simp only [replies, hx] at hstep
  have hcap := hp.same.capacity (List.mem_cons_self (a := s.parser.inputb))
  have hdata : p.inputb.data = s.parser.inputb.data := hp.data
  have hsize : p.inputb.size = s.parser.inputb.size := hp.size
  refine ⟨?_, hp.sound, fun he => ?_, fun he identity pair q => ?_, hsize, ?_, hp.advance, ?_⟩
  · have herr : e = _ := hp.err
    have hview : p.view h = _ := hp.view
    have hcontents : resp.contents h = _ := hp.contents
    unfold parsed view
    rw [herr, hview, hcontents]
    rfl
  · cases e with
    | ok => exact absurd rfl he
    | _ => exact hstep
  · obtain rfl : e = .ok := he
    exact ⟨hstep.between⟩
  · show p.inputb.capacity h = _
    rw [← hcap]
    unfold Mem.Buffer.capacity
    rw [hdata]
  · show p.inputb.behind h far = _
    rw [← hp.same.behind (List.mem_cons_self (a := s.parser.inputb)) far]
    unfold Mem.Buffer.behind
    rw [hdata, hsize]

/-- Clearing the reply leaves the input as it is. -/
theorem answer_input (hs : Mem.Sound s.heap [s.respBuffer, s.parser.inputb]) (pair : ReaderPair R)
    (q : Recycle (ReaderPair R)) :
    let t := s.answer identity pair q
    t.view = s.view.answer identity pair q ∧ t.parser.inputb.capacity t.heap = s.parser.inputb.capacity s.heap ∧
      ∀ far, t.parser.inputb.behind t.heap far = s.parser.inputb.behind s.heap far := by
  obtain ⟨_, hsame, _, hnil, _⟩ := Mem.sound_clear hs
  have hin := hsame.contents (List.mem_cons_self (a := s.parser.inputb))
  refine ⟨?_, hsame.capacity List.mem_cons_self, fun far => hsame.behind List.mem_cons_self far⟩
  unfold answer view Relay.answer Mem.CmdParser.view
  dsimp only
  rw [hnil]
  simp only [Mem.CmdParser.reset, CmdParser.reset]
  rw [hin]

theorem readLoop_view (far : Bytes) (n : Nat) : ∀ s : Intake R, s.replies.Kept [] →
    Looped s (Relay.readLoop identity (s.parser.inputb.behind s.heap far) n s.view) (readLoop identity far n s) := by
  induction n with
  | zero => intro s hk; exact ⟨rfl, rfl, fun _ => hk, rfl, rfl, Nat.le_refl _, rfl⟩
  | succ n ih =>
    intro s hk
    have hempty : s.view.upstream.parser.inputb = [] ↔ s.parser.inputb.used = 0 := by
      rw [← List.length_eq_zero_iff, input_length hk]
    rw [readLoop, Relay.readLoop]
    by_cases h0 : s.parser.inputb.used = 0
    · rw [if_pos h0, if_pos (hempty.mpr h0)]
      exact ⟨rfl, rfl, fun _ => hk, rfl, rfl, Nat.le_refl _, rfl⟩
    rw [if_neg h0, if_neg (hempty.not.mpr h0)]
    have hafter := after_parse hk far
    dsimp only at hafter
    rcases hx : s.parser.parseResponse far s.heap s.respBuffer with ⟨e, h, p, resp⟩
    rw [hx] at hafter
    obtain ⟨hrel, hsound, hwait, hdone, hsize, hcap, hused, hbehind⟩ := hafter
    rw [hrel]
    have hfail : e ≠ .ok → ∀ e' : Error, Looped s (e', (s.parsed h p resp).view) (e', s.parsed h p resp) :=
      fun he _ => ⟨rfl, rfl, fun _ => hwait he, hsize, hcap, hused, rfl⟩
    cases e with
    | ok =>
      dsimp only
      rcases s.cmdQueue.pop_held with ⟨_, hpop⟩ | ⟨pair, q, hpop, _⟩
      · rw [hpop, show (s.parsed h p resp).view.upstream.cmdQueue.pop = _ from hpop]
        exact ⟨rfl, rfl, fun he => absurd rfl he, hsize, hcap, hused, rfl⟩
      · rw [hpop, show (s.parsed h p resp).view.upstream.cmdQueue.pop = _ from hpop]
        obtain ⟨hview, hcap', hbehind'⟩ := answer_input hsound pair q
        have hloop := ih _ (hdone rfl identity pair q)
        rw [hbehind', hbehind, hview] at hloop
        exact ⟨hloop.err, hloop.view, hloop.kept, hloop.size.trans hsize, hloop.capacity.trans (hcap'.trans hcap),
          Nat.le_trans hloop.used hused, hloop.readable⟩
    | tryAgain => exact hfail Error.noConfusion _
    | _ => exact hfail Error.noConfusion _

/-! ## Room -/

/-- Fewer than 2^31 bytes are unread when a read is handled, and a block can be as large as it
    is asked for. -/
structure Small (minSize : Nat) (s : Intake R) (chunk : Bytes) : Prop where
  unread : s.parser.inputb.used + chunk.length < 2 ^ 31
  input : s.parser.inputb.used + chunk.length + minSize + 4 < 2 ^ 32
  resp : s.respBuffer.used + s.parser.inputb.used + chunk.length + 4 < 2 ^ 32

/-- What a read leaves that finds room. -/
theorem read_spec {minSize : Nat} {chunk : Bytes} (hk : s.replies.Kept []) (hf : s.Small minSize chunk)
    (hchunk : chunk.length ≤ s.freeSize) (h0 : 0 < s.freeSize) :
    ∃ t, s.read chunk = (.ok, t) ∧ t.replies.Kept [] ∧ t.freeSize = s.freeSize - chunk.length ∧
      t.parser.inputb.used = s.parser.inputb.used + chunk.length ∧ t.readable = s.readable ∧
      t.view = { s.view with upstream := { s.view.upstream with parser := s.view.upstream.parser.feed chunk } } := by
  have hsound := input_sound hk
  have hfree := freeSize_eq hk
  have hshape := hsound.shaped s.parser.inputb List.mem_cons_self
  have hsize := hshape.size_le
  have hoff := hshape.offset_le
  have hroom : s.parser.inputb.size + chunk.length ≤ s.parser.inputb.capacity s.heap := by omega
  obtain ⟨hok, hrec⟩ := Mem.sound_receive hsound hroom
  obtain ⟨hk', _⟩ := Mem.Replies.step_receive hk (l := chunk) ⟨hroom, hf.unread, hf.resp⟩
  have hplace := hrec.place
  have hread : s.read chunk = (.ok, { s with
      heap := s.parser.inputb.writeTail s.heap chunk,
      parser := { s.parser with
        inputb := (s.parser.inputb.appendSize (s.parser.inputb.writeTail s.heap chunk) chunk.length).2 } }) := by
    unfold read
    rw [if_neg (Nat.pos_iff_ne_zero.mp h0)]
    exact Prod.ext hok rfl
  have hresp : s.respBuffer.contents (s.parser.inputb.writeTail s.heap chunk) = s.respBuffer.contents s.heap :=
    hrec.apart hk.between.reading.own
  refine ⟨_, hread, ⟨hk'.between⟩, ?_, ?_, rfl, ?_⟩
  · refine (Mem.sound_freeSize hrec.sound).trans ?_
    rw [hrec.capacity, hplace, hfree]
    exact Nat.sub_add_eq _ _ _
  · show ((s.parser.inputb.appendSize (s.parser.inputb.writeTail s.heap chunk) chunk.length).2).used = _
    rw [hplace]
    show s.parser.inputb.size + chunk.length - s.parser.inputb.offset =
      s.parser.inputb.size - s.parser.inputb.offset + chunk.length
    omega
  · unfold view Mem.CmdParser.view CmdParser.feed
    dsimp only
    rw [hresp, hrec.contents]

theorem makeRoom_spec {minSize : Nat} (hk : s.replies.Kept []) (hn : s.parser.inputb.Affords minSize) :
    let t := (s.makeRoom minSize).2
    t.replies.Kept [] ∧ t.view = s.view ∧ minSize ≤ t.freeSize ∧ t.readable = s.readable := by
  unfold makeRoom
  by_cases hlow : s.freeSize < minSize
  · obtain ⟨h, b, he, hg⟩ := Mem.sound_grow (input_sound hk) hn
    obtain ⟨hk', _⟩ := Mem.Replies.step_grow hk hn
    unfold Mem.Replies.step at hk'
    simp only [replies, he] at hk'
    rw [if_pos hlow, he]
    refine ⟨⟨hk'.between⟩, ?_, hg.freeSize_ge, rfl⟩
    unfold view Mem.CmdParser.view
    dsimp only
    rw [hg.contents, hg.same.contents List.mem_cons_self]
  · rw [if_neg hlow]
    exact ⟨hk, rfl, Nat.le_of_not_lt hlow, rfl⟩

/-- A read handled to its end leaves room, and one that is not leaves what there was. -/
theorem onServerRead_spec (identity : R → Nat) {minSize : Nat} (hk : s.replies.Kept []) (hmin : 0 < minSize)
    (hin : s.parser.inputb.used + minSize + 4 < 2 ^ 32) (far : Bytes) {w : Error × Relay R}
    (hw : Relay.onServerRead identity (s.parser.inputb.behind s.heap far) s.view = w)
    (herr : w.1 = .ok ∨ w.1 ≠ .empty ∧ 0 < s.freeSize) :
    let t := (onServerRead identity minSize far s).2
    t.replies.Kept [] ∧ t.view = w.2 ∧ 0 < t.freeSize ∧ t.readable = s.readable := by
  have hl : Looped s _ (readLoop identity far s.cmdQueue.holder.length s) := readLoop_view far _ s hk
  have hw : Relay.readLoop identity (s.parser.inputb.behind s.heap far) s.cmdQueue.holder.length s.view = w := hw
  rw [hw] at hl
  dsimp only
  unfold onServerRead
  rcases hr : readLoop identity far s.cmdQueue.holder.length s with ⟨e, t⟩
  rw [hr] at hl
  have he : e = w.1 := hl.err
  by_cases hok : e = .ok
  · subst hok
    have hused : t.parser.inputb.used ≤ s.parser.inputb.used := hl.used
    have hk' : t.replies.Kept [] := hl.kept Error.noConfusion
    obtain ⟨hk2, hview, hroom, hread⟩ := makeRoom_spec hk' (show t.parser.inputb.Affords minSize by
      unfold Mem.Buffer.Affords; omega)
    exact ⟨hk2, hview.trans hl.view, Nat.lt_of_lt_of_le hmin hroom, hread.trans hl.readable⟩
  · obtain ⟨hne, hpos⟩ := herr.resolve_left fun h => hok (he.trans h)
    have hk' : t.replies.Kept [] := hl.kept fun hempty => hne (he.symm.trans hempty)
    have hfree : t.freeSize = s.freeSize := by
      rw [freeSize_eq hk', freeSize_eq hk, show t.parser.inputb.capacity t.heap = _ from hl.capacity,
        show t.parser.inputb.size = _ from hl.size]
    -- left early: nothing is made of the input's room
    have hgoal : t.replies.Kept [] ∧ t.view = w.2 ∧ 0 < t.freeSize ∧ t.readable = s.readable :=
      ⟨hk', hl.view, by rw [hfree]; exact hpos, hl.readable⟩
    cases e with
    | ok => exact absurd rfl hok
    | _ => exact hgoal

theorem pushRequest_view (identity : R → Nat) (cmd : Cmd) (reader : R) :
    let r := s.pushRequest identity cmd reader
    let w := s.view.upstream.pushRequest identity cmd reader
    r.1 = w.1 ∧ r.2.view = { s.view with upstream := w.2 } ∧ r.2.replies = s.replies ∧ r.2.readable = s.readable := by
  dsimp only
  unfold pushRequest Upstream.pushRequest
  by_cases hc : s.serverConn.connected = false
  · rw [if_pos hc, if_pos (show s.view.upstream.serverConn.connected = false from hc)]
    exact ⟨rfl, rfl, rfl, rfl⟩
  · rw [if_neg hc, if_neg (show ¬ s.view.upstream.serverConn.connected = false from hc)]
    rw [show s.view.upstream.cmdQueue = s.cmdQueue from rfl]
    rcases s.cmdQueue.push ⟨identity reader, some reader⟩ with e | q
    · cases e <;> exact ⟨rfl, rfl, rfl, rfl⟩
    · exact ⟨rfl, rfl, rfl, rfl⟩

end Intake

/-! ## Errors of the loop -/

namespace Exchange

variable {identity} {reply : Nat → Reply} {accepted : List (Cmd × R)} {received : Bytes} {conn : Connection}
  {beyond : Bytes}

/-- The replies received end at an edge of one. -/
def AtEdge (reply : Nat → Reply) (received : Bytes) : Prop :=
  ∃ D p, received = stream reply D ++ p ∧ (reply D).Edge p

theorem readLoop_error (hsteady : ∀ k, (reply k).Steady) (hans : received <+: stream reply accepted.length)
    (n : Nat) : ∀ s : Relay R, Mid identity reply accepted received conn s →
      let e := (Relay.readLoop identity beyond n s).1
      e = .ok ∨ e = .outOfBound ∧ AtEdge reply received := by
  induction n with
  | zero => intro s _; exact Or.inl rfl
  | succ n ih =>
    intro s hmid
    dsimp only
    rw [Relay.readLoop]
    by_cases h0 : s.upstream.parser.inputb = []
    · rw [if_pos h0]
      exact Or.inl rfl
    rw [if_neg h0]
    have hround : Relay.Round identity beyond (Mid identity reply accepted received conn) _ := mid_round hsteady hans
    by_cases hok : (s.parseResponse beyond).1 = .ok
    · have hx : s.parseResponse beyond = (.ok, (s.parseResponse beyond).2) := Prod.ext hok rfl
      rw [hx]
      dsimp only
      rcases s.upstream.cmdQueue.pop_held with ⟨hempty, _⟩ | ⟨pair, q, hpop, hheld, _⟩
      · -- a reply received whole has its entry
        obtain ⟨D, P, p, a, hat, _⟩ := hmid
        have hD := (inside_or_whole hat hans h0).1
        have hqueue := congrArg List.length hat.queue
        rw [hempty, List.length_map, List.length_drop, List.length_nil] at hqueue
        omega
      · rw [show (s.parseResponse beyond).2.upstream.cmdQueue.pop = .ok (pair, q) from hpop]
        exact ih _ (hround.answers s pair q hmid h0 hok hheld)
    · obtain ⟨D, P, p, a, hat, hroom⟩ := hmid
      have hin : P.inputb ++ a ≠ [] := by
        have h0 := h0
        rw [hat.parser] at h0
        exact h0
      have herr : (s.parseResponse beyond).1 = ((P.feed a).parseResponse beyond s.upstream.respBuffer).1 := by
        rw [← hat.parser]
        rfl
      rcases (inside_or_whole hat hans h0).2 with hp | ⟨t, rest, rfl, ht⟩
      · rcases waiting_edge beyond (hsteady D) hat.halfway hin hroom hp with he | ⟨he, hedge⟩
        · rw [show s.parseResponse beyond = (.tryAgain, (s.parseResponse beyond).2) from
            Prod.ext (herr.trans he) rfl]
          exact Or.inl rfl
        · rw [show s.parseResponse beyond = (.outOfBound, (s.parseResponse beyond).2) from
            Prod.ext (herr.trans he) rfl]
          exact Or.inr ⟨rfl, D, p ++ a, hat.received, hedge⟩
      · rw [← List.append_assoc, List.length_append] at hroom
        have hwhole : Answers (reply D) rest ((P.feed (t ++ rest)).parseResponse beyond s.upstream.respBuffer) :=
          parseResponse_whole (hsteady D) hat.halfway (Nat.lt_of_le_of_lt (Nat.le_add_right _ _) hroom) ht
        obtain ⟨type, m, hres⟩ := hwhole
        rw [hres] at herr
        exact absurd herr hok

/-- A read between events: the loop comes to its end, or to an edge. -/
theorem onServerRead_error {D : Nat} {P : CmdParser} {p chunk : Bytes} {s : Relay R} (hsteady : ∀ k, (reply k).Steady)
    (hat : At identity reply accepted received conn D P p [] s)
    (hans : received ++ chunk <+: stream reply accepted.length)
    (hroom : (s.upstream.parser.inputb ++ chunk).length < 2 ^ 31) (beyond : Bytes) :
    let e := (Relay.onServerRead identity beyond
      { s with upstream := { s.upstream with parser := s.upstream.parser.feed chunk } }).1
    e = .ok ∨ e = .outOfBound ∧ AtEdge reply (received ++ chunk) := by
  have hP := parser_eq hat
  refine readLoop_error hsteady hans _ _ ⟨D, P, p, chunk, ⟨hat.count, ?_, hat.inside, ?_, hat.halfway, hat.queue,
    hat.writes, hat.conn⟩, ?_⟩
  · rw [hat.received, List.append_nil, List.append_assoc]
  · rw [hP]
  · rw [← hP]
    exact hroom

end Exchange

/-! ## Runs -/

/-- The intake, the pushes it accepted and the bytes it received. -/
structure Inlet (R : Type) where
  intake : Intake R
  accepted : List (Cmd × R)
  received : Bytes

namespace Inlet

variable (minSize : Nat)

def step (x : Inlet R) : Event R → Inlet R
  | .push cmd reader =>
    { x with intake := (x.intake.pushRequest identity cmd reader).2,
             accepted := if (x.intake.pushRequest identity cmd reader).1 = .ok then x.accepted ++ [(cmd, reader)]
               else x.accepted }
  | .read chunk far =>
    { x with intake := x.intake.onReadable identity minSize far chunk, received := x.received ++ chunk }

/-- What `Exchange` has of it. -/
def view (x : Inlet R) : Exchange R := ⟨x.intake.view, x.accepted, x.received⟩

/-- What is received answers what was accepted, and is read to free space. -/
def Answering (reply : Nat → Reply) (x : Inlet R) : Event R → Prop
  | .push _ _ => True
  | .read chunk _ =>
    x.received ++ chunk <+: Exchange.stream reply x.accepted.length ∧ chunk.length ≤ x.intake.freeSize

/-- The read leaves free space, or does not end at an edge of a reply. -/
def Clears (reply : Nat → Reply) (x : Inlet R) : Event R → Prop
  | .push _ _ => True
  | .read chunk _ => x.intake.Small minSize chunk ∧
    (chunk.length = x.intake.freeSize → ¬ Exchange.AtEdge reply (x.received ++ chunk))

/-- Between events. -/
structure Roomy (identity : R → Nat) (reply : Nat → Reply) (x : Inlet R) : Prop where
  kept : x.intake.replies.Kept []
  stands : Exchange.Inv identity reply x.view
  room : 0 < x.intake.freeSize
  readable : x.intake.readable = true

variable {identity minSize} {reply : Nat → Reply} {x : Inlet R}

theorem roomy_push (hx : Roomy identity reply x) (cmd : Cmd) (reader : R) :
    Roomy identity reply (x.step identity minSize (.push cmd reader)) := by
  obtain ⟨hkept, hstands, hroom, hreadable⟩ := hx
  obtain ⟨herr, hview, hreplies, hread⟩ := Intake.pushRequest_view (s := x.intake) identity cmd reader
  have hstep : (x.step identity minSize (.push cmd reader)).view = x.view.step identity (.push cmd reader) := by
    unfold step view Exchange.step
    dsimp only
    rw [hview, herr]
  refine ⟨?_, ?_, ?_, hread.trans hreadable⟩
  · show (x.intake.pushRequest identity cmd reader).2.replies.Kept []
    rw [hreplies]
    exact hkept
  · rw [hstep]
    exact Exchange.inv_push hstands cmd reader
  · show 0 < (x.intake.pushRequest identity cmd reader).2.replies.parser.inputb.freeSize
      (x.intake.pushRequest identity cmd reader).2.replies.heap
    rw [hreplies]
    exact hroom

theorem unread_lt {chunk : Bytes} (hk : x.intake.replies.Kept []) (hf : x.intake.Small minSize chunk) :
    (x.view.relay.upstream.parser.inputb ++ chunk).length < 2 ^ 31 := by
  rw [List.length_append, show x.view.relay.upstream.parser.inputb.length = _ from Intake.input_length hk]
  exact hf.unread

theorem roomy_read (hsteady : ∀ k, (reply k).Steady) (hmin : 0 < minSize) (hx : Roomy identity reply x)
    {chunk far : Bytes} (ha : Answering reply x (.read chunk far)) (hc : Clears minSize reply x (.read chunk far)) :
    Roomy identity reply (x.step identity minSize (.read chunk far)) := by
  obtain ⟨hkept, hstands, hroom, hreadable⟩ := hx
  obtain ⟨hans, hchunk⟩ := ha
  obtain ⟨hsmall, hedge⟩ := hc
  obtain ⟨t, hread, hkt, hfree, hused, hreadt, hviewt⟩ := Intake.read_spec hkept hsmall hchunk hroom
  have hstep : (x.step identity minSize (.read chunk far)).intake =
      (Intake.onServerRead identity minSize far t).2 := by
    show Intake.onReadable identity minSize far x.intake chunk = _
    unfold Intake.onReadable
    rw [hread]
  have hunread := unread_lt hkept hsmall
  obtain ⟨D, P, p, hat⟩ := hstands.stands
  have hinput := hsmall.input
  obtain ⟨hk, hview, hroom', hread'⟩ := Intake.onServerRead_spec identity hkt hmin
    (by rw [hused]; exact hinput) far rfl (by
      rw [hviewt]
      rcases Exchange.onServerRead_error hsteady hat hans hunread (t.parser.inputb.behind t.heap far)
        with he | ⟨he, hat⟩
      · exact Or.inl he
      · -- an early return, so the read has left space
        refine Or.inr ⟨fun hempty => Error.noConfusion (he.symm.trans hempty), ?_⟩
        have hne : chunk.length ≠ x.intake.freeSize := fun hfull => hedge hfull hat
        omega)
  rw [hviewt] at hview
  have hrun : (x.step identity minSize (.read chunk far)).view =
      x.view.step identity (.read chunk (t.parser.inputb.behind t.heap far)) := by
    show (⟨(x.step identity minSize (.read chunk far)).intake.view, _, _⟩ : Exchange R) = _
    rw [hstep, hview]
    rfl
  refine ⟨by rw [hstep]; exact hk, ?_, by rw [hstep]; exact hroom', by rw [hstep, hread', hreadt]; exact hreadable⟩
  rw [hrun]
  exact Exchange.inv_read hsteady hstands chunk _ hans hunread

def start (h : Mem.Heap) (n : Nat) (hn : 0 < n) (initSize : Nat) : Inlet R := ⟨.start h n hn initSize, [], []⟩

theorem roomy_start {supply : Nat → Option (Nat → Byte)} (hsupply : ∀ k, supply k ≠ none) (n : Nat) (hn : 0 < n)
    {initSize : Nat} (hinit : 0 < initSize) (halloc : initSize + 4 < 2 ^ 32) :
    Roomy identity reply (start (.start supply) n hn initSize : Inlet R) := by
  have hk := Mem.Replies.kept_start (Mem.sound_start hsupply)
  have hafford : Mem.Buffer.null.Affords initSize := by
    show 0 + initSize + 4 < 2 ^ 32
    omega
  let s : Intake R := ⟨.start supply, .init, .null, .create n hn, .opened, [], true⟩
  have hstart : Intake.start (.start supply) n hn initSize = (s.makeRoom initSize).2 := by
    unfold Intake.makeRoom
    rw [if_pos (show s.freeSize < initSize from hinit)]
    rfl
  obtain ⟨hkept, hview, hroom, hread⟩ := Intake.makeRoom_spec (s := s) ⟨hk.between⟩ hafford
  refine ⟨?_, ?_, ?_, ?_⟩
  · show (Intake.start (.start supply) n hn initSize).replies.Kept []
    rw [hstart]
    exact hkept
  · show Exchange.Inv identity reply ⟨(Intake.start (.start supply) n hn initSize).view, [], []⟩
    rw [hstart, hview]
    exact Exchange.inv_start n hn
  · show 0 < (Intake.start (.start supply) n hn initSize).freeSize
    rw [hstart]
    exact Nat.lt_of_lt_of_le hinit hroom
  · show (Intake.start (.start supply) n hn initSize).readable = true
    rw [hstart]
    exact hread

/-- As long as no read that fills the buffer ends at an edge of a reply, the connection stays
    readable, and there is room to read. -/
theorem readable_has_room (identity : R → Nat) (reply : Nat → Reply) {supply : Nat → Option (Nat → Byte)}
    (hsupply : ∀ k, supply k ≠ none) (n : Nat) (hn : 0 < n) {initSize minSize : Nat} (hinit : 0 < initSize)
    (hmin : 0 < minSize) (halloc : initSize + 4 < 2 ^ 32) (hsteady : ∀ k, (reply k).Steady) (events : List (Event R))
    (hans : Each (step identity minSize) (Answering reply) (start (.start supply) n hn initSize) events)
    (hc : Each (step identity minSize) (Clears minSize reply) (start (.start supply) n hn initSize) events) :
    let x := events.foldl (step identity minSize) (start (.start supply) n hn initSize)
    x.intake.readable = true ∧ 0 < x.intake.freeSize := by
  have hx := each_run (I := Roomy identity reply) (fun x e hx he => by
    cases e with
    | push cmd reader => exact roomy_push hx cmd reader
    | read chunk far => exact roomy_read hsteady hmin hx he.1 he.2) events _
    (roomy_start hsupply n hn hinit halloc) (hans.and hc)
  exact ⟨hx.readable, hx.room⟩

/-- `$1\r\n` fills the buffer, `a\r\n` comes after it. -/
theorem readable_has_room_full :
    let events : List (Event Nat) := [.push [[71]] 1, .read [36, 49, 13, 10] [], .read [97, 13, 10] []]
    let x := events.foldl (step id 1) (start (.start fun _ => some fun _ => 0) 2 (by decide) 4)
    x.intake.readable = true ∧ 0 < x.intake.freeSize := by
  have hedge : ∀ w, ¬ Exchange.AtEdge (fun _ => Reply.bulk [97]) w := by
    rintro w ⟨D, p, _, len, done, x, todo, hlay, _⟩
    have henc := congrArg List.head? hlay.enc
    cases henc
  refine readable_has_room id (fun _ => .bulk [97]) (fun _ => Option.some_ne_none _) 2 (by decide) (by decide)
    (by decide) (by decide) (fun _ => ⟨by decide, by decide⟩) _ ?_ ?_
  · exact ⟨trivial, ⟨by decide, by decide⟩, ⟨by decide, by decide⟩, trivial⟩
  · exact ⟨trivial, ⟨⟨by decide, by decide, by decide⟩, fun _ => hedge _⟩,
      ⟨⟨by decide, by decide, by decide⟩, fun _ => hedge _⟩, trivial⟩

/-- The count line of an array fills the buffer: the loop is left early, and no room is made.
    The next read finds none and switches the connection off. -/
theorem full_at_edge :
    let reply := fun _ => Reply.array [.bulk [97], .bulk [98]]
    let events : List (Event Nat) := [.push [[71]] 1, .read [42, 50, 13, 10] []]
    let x := events.foldl (step id 1) (start (.start fun _ => some fun _ => 0) 2 (by decide) 4)
    Each (step id 1) (Answering reply) (start (.start fun _ => some fun _ => 0) 2 (by decide) 4) events ∧
      x.intake.readable = true ∧ x.intake.freeSize = 0 ∧
      (x.step id 1 (.read [] [])).intake.readable = false := by
  refine ⟨⟨trivial, ⟨by decide, by decide⟩, trivial⟩, by decide, by decide, by decide⟩

end Inlet

end RedisProxy.Server
