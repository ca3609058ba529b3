/-
  RedisProxy.Client.Intake — a client session over the heap (session.cpp, `Event::Read` of
  netio.cpp, `OnReadable` of connections.cpp).

  The parser's input and the arguments of `currentCmd_` are buffers that share blocks, and
  `OnClientRead` makes room in the input when its loop has come to its end. It leaves
  early, and makes none, where a push is refused and where the input is no command.

  `Read` reads as much as there is room for. Without room it switches the connection's
  readability off, and the handler runs on what there is.

  Proved, over every run of reads, writes and replies, the upstream doing whatever it likes:
  - `session_refined`: the session does what `Client.Session` says of the bytes, and holds
    a reference to each block it can see and to no other.
  - `room_unless_refused`: there is room to read, unless the last thing that happened was
    that a command was refused, or the connection is about to be closed.
-/

import RedisProxy.Client.Session
import RedisProxy.Lib.Simulation
import RedisProxy.Mem.Offsets
import RedisProxy.Mem.Progress
import RedisProxy.Mem.Requests
import RedisProxy.Net.Flush

namespace RedisProxy.Client

open Lib Lib.Decimal Lib.Runs Lib.Simulation Wire Net

structure Intake (U : Type) where
  heap : Mem.Heap
  id : Nat
  clientConn : Nat
  currentCmd : Mem.Cmd
  parser : Mem.CmdParser
  conn : Connection
  upstream : U
  /-- As `Session` records them. -/
  calls : List Call

/-- How the loop is left: by a `return`, or to what follows it. -/
inductive Leave where
  | returns (e : Error)
  | falls
  deriving DecidableEq, Repr

/-- What the caller of `OnClientRead` gets; making room succeeds. -/
def Leave.err : Leave → Error
  | .returns e => e
  | .falls => .ok

namespace Intake

variable {U : Type} (push : U → Cmd → Error × U) (minSize : Nat) (far : Bytes)

/-- `OnNewClientConnection`; `initSize` is `ReadBufferInitSize`. -/
def start (h : Mem.Heap) (id clientConn : Nat) (u : U) (initSize : Nat) : Intake U :=
  let (_, h, b) := Mem.Buffer.null.appendCapacity h initSize
  ⟨h, id, clientConn, .empty, { Mem.CmdParser.init with inputb := b }, .opened, u, []⟩

def pushRequest (s : Intake U) : Error × Intake U :=
  ((push s.upstream (s.currentCmd.view s.heap)).1,
    { s with upstream := (push s.upstream (s.currentCmd.view s.heap)).2,
             calls := s.calls ++
               [.push (s.currentCmd.view s.heap) (push s.upstream (s.currentCmd.view s.heap)).1] })

/-- `far` is what lies behind the input's block. -/
def parseRequest (s : Intake U) : Error × Intake U :=
  let (e, h, p, c) := s.parser.parseRequest far s.heap s.currentCmd
  (e, { s with heap := h, parser := p, currentCmd := c,
               calls := s.calls ++ [.parse (s.parser.view s.heap) (s.parser.inputb.behind s.heap far) e] })

def resetCmd (s : Intake U) : Intake U :=
  { s with heap := (s.currentCmd.reset s.heap).1, currentCmd := (s.currentCmd.reset s.heap).2,
           calls := s.calls ++ [.reset] }

def resetParser (s : Intake U) : Intake U := { s with parser := s.parser.reset }

def refused (e : Error) (s : Intake U) : Leave × Intake U :=
  if e = .tryAgain then (.returns .ok, { s with conn := s.conn.setReadable false }) else (.returns e, s)

def failed (e : Error) (s : Intake U) : Leave × Intake U :=
  (.returns e, { s with conn := s.conn.writeToBuffer e.string true })

def readLoop : Nat → Intake U → Leave × Intake U
  | 0, s => (.falls, s)
  | n + 1, s =>
    if s.parser.inputb.used = 0 then (.falls, s)
    else
      match s.parseRequest far with
      | (.ok, s) =>
        match s.pushRequest push with
        | (.ok, s) => readLoop n s.resetParser.resetCmd
        | (e, s) => s.refused e
      | (.tryAgain, s) => (.falls, s)
      | (e, s) => s.failed e

def rounds (s : Intake U) : Nat :=
  s.parser.inputb.used + if s.parser.parseType = .none then 1 else 2

/-- The free space of the input. -/
def freeSize (s : Intake U) : Nat := s.parser.inputb.freeSize s.heap

/-- The end of `OnClientRead`; `minSize` is `ReadBufferMinSize`. -/
def makeRoom (s : Intake U) : Intake U :=
  if s.freeSize < minSize then
    let (_, h, b) := s.parser.inputb.appendCapacity s.heap minSize
    { s with heap := h, parser := { s.parser with inputb := b } }
  else s

/-- `OnClientRead` up to where it makes room. -/
def handle (s : Intake U) : Leave × Intake U :=
  if s.currentCmd.argv = [] then readLoop push far s.rounds s
  else
    match s.pushRequest push with
    | (.ok, s) => readLoop push far s.resetCmd.rounds s.resetCmd
    | (e, s) => s.refused e

def onClientRead (s : Intake U) : Intake U :=
  match handle push far s with
  | (.falls, s) => s.makeRoom minSize
  | (.returns _, s) => s

/-- `Event::Read` to the input's tail; `chunk` is what `read` brings. -/
def read (s : Intake U) (chunk : Bytes) : Intake U :=
  if s.freeSize = 0 then { s with conn := s.conn.setReadable false }
  else
    let h := s.parser.inputb.writeTail s.heap chunk
    { s with heap := h, parser := { s.parser with inputb := (s.parser.inputb.appendSize h chunk.length).2 } }

def onServerWrite (s : Intake U) (b : Bytes) : Intake U :=
  if s.conn.connected then { s with conn := (s.conn.writeToBuffer b false).setReadable true } else s

inductive Event (U : Type) where
  | read (chunk far : Bytes)
  | write (w : WriteResult)
  | reply (b : Bytes)
  /-- The upstream has done something else. -/
  | elsewhere (u : U)

/-- The handler runs also when there was no room. -/
def step (s : Intake U) : Event U → Intake U
  | .read chunk far => (s.read chunk).onClientRead push minSize far
  | .write w => { s with conn := (s.conn.onWritable w).2 }
  | .reply b => s.onServerWrite b
  | .elsewhere u => { s with upstream := u }

/-! ## On the bytes -/

/-- What `Client.Session` has of it. -/
def view (s : Intake U) : Peer U :=
  ⟨⟨s.id, s.clientConn, s.currentCmd.view s.heap, s.parser.view s.heap⟩, s.conn, s.upstream, s.calls⟩

/-- What a session can do there. -/
inductive Action (U : Type) where
  | read (chunk beyond : Bytes)
  /-- Without room for more. -/
  | full (beyond : Bytes)
  | write (w : WriteResult)
  | reply (b : Bytes)
  | elsewhere (u : U)

def answered (b : Bytes) (c : Peer U) : Peer U :=
  if c.conn.connected then { c with conn := (c.conn.writeToBuffer b false).setReadable true } else c

def act (c : Peer U) : Action U → Option (Peer U)
  | .read chunk beyond => some (c.onReadable push (chunk, beyond))
  | .full beyond => some (Peer.onClientRead push beyond { c with conn := c.conn.setReadable false }).2
  | .write w => some { c with conn := (c.conn.onWritable w).2 }
  | .reply b => some (answered b c)
  | .elsewhere u => some { c with upstream := u }

/-- What is behind the input, in its block and behind it. -/
def beyond (s : Intake U) (far : Bytes) : Bytes := s.parser.inputb.behind s.heap far

/-- What lies behind the unread bytes when a read is handled is what the heap has there. -/
def actions (s : Intake U) : Event U → List (Action U)
  | .read chunk far =>
    if s.freeSize = 0 then [.full ((s.read chunk).beyond far)] else [.read chunk ((s.read chunk).beyond far)]
  | .write w => [.write w]
  | .reply b => [.reply b]
  | .elsewhere u => [.elsewhere u]

/-- The part that a request call works on. -/
def requests (s : Intake U) : Mem.Requests := ⟨s.heap, s.parser, s.currentCmd⟩

/-- The bytes are read to free space, and fewer than 2^31 are unread, an argument that looks at
    their block counted as one of them. -/
def Fits (s : Intake U) : Event U → Prop
  | .read chunk _ => chunk.length ≤ s.freeSize ∧ s.requests.shared + s.parser.inputb.used + chunk.length < 2 ^ 31
  | _ => True

def Kept (s : Intake U) : Prop := s.requests.Kept []

variable {push minSize far} {s : Intake U}

/-! ## One call -/

theorem length_input (hk : Kept s) : s.view.session.parser.inputb.length = s.parser.inputb.used :=
  Mem.length_contents hk.sound

theorem rounds_view (hk : Kept s) : s.view.rounds = s.rounds := by
  unfold Peer.rounds rounds
  rw [length_input hk]
  rfl

theorem drained_view (hk : Kept s) : s.view.session.parser.inputb = [] ↔ s.parser.inputb.used = 0 := by
  rw [← List.length_eq_zero_iff, length_input hk]

theorem offset_place (b : Mem.Buffer) (start : Int) :
    (b.offsetBy start 0).data = b.data ∧ (b.offsetBy start 0).size = b.size := by
  have hzero : sizeT (-0) = 0 := rfl
  refine ⟨rfl, ?_⟩
  unfold Mem.Buffer.offsetBy
  dsimp only
  rw [if_neg (Int.lt_irrefl 0), hzero, Nat.sub_zero]
  by_cases h0 : 0 < b.size
  · rw [if_pos h0, if_neg (Nat.lt_irrefl _)]
  · rw [if_neg h0, if_neg h0]

/-- A call leaves the input in its block, from a later place on. -/
theorem parse_place (far : Bytes) (s : Intake U) :
    (s.parseRequest far).2.parser.inputb.data = s.parser.inputb.data ∧
      (s.parseRequest far).2.parser.inputb.size = s.parser.inputb.size := by
  have hinput : (s.parseRequest far).2.parser.inputb = _ :=
    Mem.CmdParser.request_handOver far s.heap s.parser s.currentCmd
  rw [hinput, Mem.CmdParser.handOver_inputb]
  split
  · exact ⟨rfl, rfl⟩
  · exact offset_place _ _

/-- What a call leaves, beside what `Session` says of it. -/
structure Called (far : Bytes) (s t : Intake U) : Prop where
  kept : Kept t
  beyond : t.beyond far = s.beyond far

theorem parse_view (hk : Kept s) (far : Bytes) :
    s.view.parseRequest (s.beyond far) = ((s.parseRequest far).1, (s.parseRequest far).2.view) ∧
      Called far s (s.parseRequest far).2 := by
  have hp : Mem.CmdParser.Asked s.heap s.parser s.currentCmd [] _ (s.parser.parseRequest far s.heap s.currentCmd) :=
    Mem.CmdParser.parseRequest_view hk far
  obtain ⟨hdata, hsize⟩ := s.parse_place far
  refine ⟨?_, hp.asking, ?_⟩
  · have herr : (s.parseRequest far).1 = _ := hp.err
    have hview : (s.parseRequest far).2.parser.view (s.parseRequest far).2.heap = _ := hp.view
    have hcontents : (s.parseRequest far).2.currentCmd.view (s.parseRequest far).2.heap = _ := hp.contents
    unfold Intake.view
    rw [hview, hcontents, herr]
    show _ = (_, Peer.mk _ _ _ (s.calls ++ [.parse _ _ (s.parseRequest far).1]))
    rw [herr]
    rfl
  · have hsame := hp.same.behind (List.mem_cons_self (a := s.parser.inputb)) far
    unfold Intake.beyond
    rw [← hsame]
    unfold Mem.Buffer.behind
    rw [hdata, hsize]
    rfl

theorem push_view (push : U → Cmd → Error × U) (hk : Kept s) (far : Bytes) :
    s.view.pushRequest push = ((s.pushRequest push).1, (s.pushRequest push).2.view) ∧
      Called far s (s.pushRequest push).2 := ⟨rfl, hk, rfl⟩

/-- The references of the command are dropped. -/
theorem resetCmd_view (hk : Kept s) (far : Bytes) : s.view.resetCmd = s.resetCmd.view ∧ Called far s s.resetCmd := by
  have hmid : (s.parser.inputb :: (s.currentCmd.argv ++ [])).Perm (s.currentCmd.argv ++ s.parser.inputb :: []) :=
    List.perm_middle.symm
  obtain ⟨_, hsame⟩ := Mem.sound_releases s.currentCmd.argv s.heap (Mem.sound_perm hmid hk.sound)
  have hcontents : s.parser.inputb.contents s.resetCmd.heap = _ := hsame.contents List.mem_cons_self
  refine ⟨?_, (Mem.Requests.reset_kept hk).1, hsame.behind List.mem_cons_self far⟩
  unfold Intake.view Mem.CmdParser.view
  show _ = Peer.mk ⟨_, _, [], ⟨_, _, s.parser.inputb.contents s.resetCmd.heap, _⟩⟩ _ _ _
  rw [hcontents]
  rfl

/-- The end of a round. -/
theorem reset_view (hk : Kept s) (far : Bytes) :
    s.view.resetParser.resetCmd = s.resetParser.resetCmd.view ∧ Called far s s.resetParser.resetCmd := by
  obtain ⟨hview, hcalled⟩ := resetCmd_view hk far
  refine ⟨?_, (Mem.Requests.reset_kept hk).2, hcalled.beyond⟩
  have hparser := congrArg (fun c : Peer U => c.session.parser) hview
  have hinput : s.parser.view s.heap = s.parser.view s.resetCmd.heap := hparser
  show Peer.mk ⟨_, _, [], (s.parser.view s.heap).reset⟩ _ _ _ =
    Peer.mk ⟨_, _, [], (s.parser.view s.resetCmd.heap).reset⟩ _ _ _
  rw [hinput]
  rfl

/-! ## The loop -/

/-- Why room may not be made: a command was refused, or the connection is to be closed. -/
def Held (s : Intake U) : Prop := Peer.Refused s.calls ∨ s.conn.closing = true

/-- What the loop leaves: `w` is what `Session` says. -/
structure Looped (w : Error × Peer U) (r : Leave × Intake U) : Prop where
  err : r.1.err = w.1
  view : r.2.view = w.2
  kept : Kept r.2
  left : r.1 ≠ .falls → Held r.2

theorem refused_looped (hk : Kept s) {cmd : Cmd} {e : Error} (he : e ≠ .ok)
    (hlast : s.calls.getLast? = some (.push cmd e)) : Looped (s.view.refused e) (s.refused e) := by
  have hrefused : Peer.Refused s.calls := ⟨cmd, e, he, hlast⟩
  unfold refused Peer.refused
  split
  · exact ⟨rfl, rfl, hk, fun _ => Or.inl hrefused⟩
  · exact ⟨rfl, rfl, hk, fun _ => Or.inl hrefused⟩

theorem failed_looped (hk : Kept s) (e : Error) : Looped (s.view.failed e) (s.failed e) :=
  ⟨rfl, rfl, hk, fun _ => Or.inr (Bool.or_true _)⟩

theorem readLoop_view (push : U → Cmd → Error × U) (far : Bytes) (n : Nat) : ∀ s : Intake U, Kept s →
    Looped (Peer.readLoop push (s.beyond far) n s.view) (readLoop push far n s) := by
  induction n with
  | zero => intro s hk; exact ⟨rfl, rfl, hk, fun h => absurd rfl h⟩
  | succ n ih =>
    intro s hk
    rw [readLoop, Peer.readLoop]
    by_cases h0 : s.parser.inputb.used = 0
    · rw [if_pos h0, if_pos ((drained_view hk).mpr h0)]
      exact ⟨rfl, rfl, hk, fun h => absurd rfl h⟩
    rw [if_neg h0, if_neg ((drained_view hk).not.mpr h0)]
    obtain ⟨hparse, hcalled⟩ := parse_view hk far
    rw [hparse]
    rcases hx : s.parseRequest far with ⟨e, t⟩
    rw [hx] at hcalled
    have hcalled : Called far s t := hcalled
    cases e with
    | ok =>
      dsimp only
      obtain ⟨hpush, hpushed⟩ := push_view push hcalled.kept far
      rw [hpush]
      have hlast : (t.pushRequest push).2.calls.getLast? = some (.push _ (t.pushRequest push).1) :=
        List.getLast?_concat
      rcases hx : t.pushRequest push with ⟨e, u⟩
      rw [hx] at hpushed hlast
      have hpushed : Called far t u := hpushed
      cases e with
      | ok =>
        dsimp only
        obtain ⟨hreset, hdone⟩ := reset_view hpushed.kept far
        have hbeyond : u.resetParser.resetCmd.beyond far = s.beyond far :=
          hdone.beyond.trans (hpushed.beyond.trans hcalled.beyond)
        have hloop := ih _ hdone.kept
        rwa [hbeyond, ← hreset] at hloop
      | _ => exact refused_looped hpushed.kept Error.noConfusion hlast
    | tryAgain => exact ⟨rfl, rfl, hcalled.kept, fun h => absurd rfl h⟩
    | _ => exact failed_looped hcalled.kept _

theorem handle_view (push : U → Cmd → Error × U) (far : Bytes) (hk : Kept s) :
    Looped (Peer.onClientRead push (s.beyond far) s.view) (handle push far s) := by
  have hargs : s.view.session.currentCmd = [] ↔ s.currentCmd.argv = [] := List.map_eq_nil_iff
  unfold handle Peer.onClientRead
  by_cases h0 : s.currentCmd.argv = []
  · rw [if_pos h0, if_pos (hargs.mpr h0), rounds_view hk]
    exact readLoop_view push far _ s hk
  rw [if_neg h0, if_neg (hargs.not.mpr h0)]
  obtain ⟨hpush, hpushed⟩ := push_view push hk far
  rw [hpush]
  have hlast : (s.pushRequest push).2.calls.getLast? = some (.push _ (s.pushRequest push).1) :=
    List.getLast?_concat
  rcases hx : s.pushRequest push with ⟨e, t⟩
  rw [hx] at hpushed hlast
  have hpushed : Called far s t := hpushed
  cases e with
  | ok =>
    dsimp only
    obtain ⟨hreset, hdone⟩ := resetCmd_view hpushed.kept far
    have hbeyond : t.resetCmd.beyond far = s.beyond far := hdone.beyond.trans hpushed.beyond
    have hloop := readLoop_view push far t.resetCmd.rounds _ hdone.kept
    rw [hbeyond, ← hreset] at hloop
    have hrounds : t.view.resetCmd.rounds = t.resetCmd.rounds := by
      rw [← rounds_view hdone.kept, ← hreset]
    rw [hrounds]
    exact hloop
  | _ => exact refused_looped hpushed.kept Error.noConfusion hlast

/-! ## Room -/

theorem freeSize_eq (hk : Kept s) : s.freeSize = s.parser.inputb.capacity s.heap - s.parser.inputb.size :=
  Mem.sound_freeSize hk.sound

theorem makeRoom_view {minSize : Nat} (hk : Kept s) (hmin : minSize + 4 ≤ 2 ^ 31) :
    Kept (s.makeRoom minSize) ∧ (s.makeRoom minSize).view = s.view ∧ minSize ≤ (s.makeRoom minSize).freeSize := by
  unfold makeRoom
  by_cases hlow : s.freeSize < minSize
  · have hlt : s.parser.inputb.used < 2 ^ 31 := by
      obtain ⟨_, _, hheld⟩ := hk.held
      exact hheld.lt
    have hafford : s.parser.inputb.Affords minSize := by
      show s.parser.inputb.used + minSize + 4 < 2 ^ 32
      omega
    obtain ⟨h, b, he, hg⟩ := Mem.sound_grow hk.sound hafford
    have he : s.parser.inputb.appendCapacity s.heap minSize = (.ok, h, b) := he
    obtain ⟨hk', _⟩ := Mem.Requests.step_grow hk hafford
    unfold Mem.Requests.step at hk'
    simp only [requests, he] at hk'
    rw [if_pos hlow, he]
    refine ⟨hk', ?_, ?_⟩
    · have hargs : s.currentCmd.view h = s.currentCmd.view s.heap := Mem.Same.view hg.same
      unfold Intake.view Mem.CmdParser.view
      dsimp only
      rw [hg.contents, hargs]
      rfl
    · exact hg.freeSize_ge
  · rw [if_neg hlow]
    exact ⟨hk, rfl, Nat.le_of_not_lt hlow⟩

/-- The handler makes room, or says why not. -/
theorem onClientRead_view (push : U → Cmd → Error × U) {minSize : Nat} (hmin : minSize + 4 ≤ 2 ^ 31) (far : Bytes)
    (hk : Kept s) :
    let t := s.onClientRead push minSize far
    Kept t ∧ t.view = (Peer.onClientRead push (s.beyond far) s.view).2 ∧ (minSize ≤ t.freeSize ∨ Held t) := by
  obtain ⟨_, hview, hkept, hleft⟩ := handle_view push far hk
  unfold onClientRead
  rcases hx : handle push far s with ⟨l, t⟩
  rw [hx] at hview hkept hleft
  cases l with
  | returns e => exact ⟨hkept, hview, Or.inr (hleft Leave.noConfusion)⟩
  | falls =>
    obtain ⟨hk', hview', hroom⟩ := makeRoom_view hkept hmin
    exact ⟨hk', hview'.trans hview, Or.inl hroom⟩

/-- What a read leaves that finds room. -/
theorem read_room {chunk far : Bytes} (hk : Kept s) (hf : Fits s (.read chunk far)) (h0 : s.freeSize ≠ 0) :
    Kept (s.read chunk) ∧
      (s.read chunk).view = { s.view with session :=
        { s.view.session with parser := s.view.session.parser.feed chunk } } := by
  obtain ⟨hfree, hlt⟩ := hf
  have hroom : s.parser.inputb.size + chunk.length ≤ s.parser.inputb.capacity s.heap := by
    have hsize := (hk.sound.shaped s.parser.inputb List.mem_cons_self).size_le
    have hsize : s.parser.inputb.size ≤ s.parser.inputb.capacity s.heap := hsize
    rw [freeSize_eq hk] at hfree
    omega
  obtain ⟨_, hrec⟩ := Mem.sound_receive hk.sound hroom
  obtain ⟨hk', hst⟩ := Mem.Requests.step_receive hk (l := chunk) ⟨hroom, hlt⟩
  have hargs : s.currentCmd.view (s.parser.inputb.writeTail s.heap chunk) = s.currentCmd.view s.heap :=
    List.map_congr_left hst.contents
  unfold read
  rw [if_neg h0]
  refine ⟨hk', ?_⟩
  have hcontents : (s.parser.inputb.appendSize (s.parser.inputb.writeTail s.heap chunk) chunk.length).2.contents
      (s.parser.inputb.writeTail s.heap chunk) = s.parser.inputb.contents s.heap ++ chunk := hrec.contents
  unfold Intake.view Mem.CmdParser.view
  dsimp only
  rw [hcontents, hargs]
  rfl

/-- One read, to its end. -/
theorem read_step (push : U → Cmd → Error × U) {minSize : Nat} (hmin : minSize + 4 ≤ 2 ^ 31) (hk : Kept s)
    {chunk far : Bytes} (hf : Fits s (.read chunk far)) :
    let t := s.step push minSize (.read chunk far)
    Kept t ∧ perform (act push) s.view (s.actions (.read chunk far)) = some t.view ∧
      (minSize ≤ t.freeSize ∨ Held t) := by
  by_cases hfull : s.freeSize = 0
  · have hread : s.read chunk = { s with conn := s.conn.setReadable false } := if_pos hfull
    obtain ⟨hk', hview, hroom⟩ := onClientRead_view (s := s.read chunk) push hmin far (by rw [hread]; exact hk)
    have hactions : s.actions (.read chunk far) = [.full ((s.read chunk).beyond far)] := if_pos hfull
    refine ⟨hk', ?_, hroom⟩
    rw [hactions]
    show some (Peer.onClientRead push _ { s.view with conn := _ }).2 = _
    refine congrArg some (Eq.trans ?_ hview.symm)
    rw [hread]
    rfl
  · obtain ⟨hkr, hfed⟩ := read_room hk hf hfull
    obtain ⟨hk', hview, hroom⟩ := onClientRead_view (s := s.read chunk) push hmin far hkr
    have hactions : s.actions (.read chunk far) = [.read chunk ((s.read chunk).beyond far)] := if_neg hfull
    refine ⟨hk', ?_, hroom⟩
    rw [hactions]
    show some (s.view.onReadable push (chunk, (s.read chunk).beyond far)) = _
    refine congrArg some (Eq.trans ?_ hview.symm)
    unfold Peer.onReadable
    rw [hfed]

/-! ## Runs -/

/-- Between events: what is seen is held, and a read finds room for `least` bytes or a reason that
    it does not. -/
structure Roomy (least : Nat) (s : Intake U) : Prop where
  kept : Kept s
  room : least ≤ s.freeSize ∨ Held s

variable {least : Nat}

theorem roomy_conn {conn : Connection} (hs : Roomy least s) (hc : s.conn.closing = true → conn.closing = true) :
    Roomy least { s with conn := conn } := ⟨hs.kept, hs.room.imp_right fun h => h.imp_right hc⟩

theorem roomy_step (push : U → Cmd → Error × U) {minSize : Nat} (hmin : minSize + 4 ≤ 2 ^ 31) (hle : least ≤ minSize)
    (hs : Roomy least s) (e : Event U) (hf : Fits s e) :
    Roomy least (s.step push minSize e) ∧
      perform (act push) s.view (s.actions e) = some (s.step push minSize e).view := by
  cases e with
  | read chunk far =>
    obtain ⟨hk, hview, hroom⟩ := read_step push hmin hs.kept hf
    exact ⟨⟨hk, hroom.imp_left hle.trans⟩, hview⟩
  | write w => exact ⟨roomy_conn hs fun hc => (Connection.onWritable_closing s.conn w).trans hc, rfl⟩
  | reply b =>
    show Roomy least (s.onServerWrite b) ∧ some (answered b s.view) = some (s.onServerWrite b).view
    unfold onServerWrite answered
    by_cases hc : s.conn.connected = true
    · rw [if_pos hc, if_pos (show s.view.conn.connected = true from hc)]
      refine ⟨roomy_conn hs fun hclosing => ?_, rfl⟩
      show (s.conn.closing || false) = true
      rw [hclosing]
      rfl
    · rw [if_neg hc, if_neg (show ¬ s.view.conn.connected = true from hc)]
      exact ⟨hs, rfl⟩
  | elsewhere u => exact ⟨⟨hs.kept, hs.room⟩, rfl⟩

theorem roomy_start {supply : Nat → Option (Nat → Byte)} (hsupply : ∀ k, supply k ≠ none)
    (id clientConn : Nat) (u : U) {initSize : Nat} (hinit : 0 < initSize) (hmax : initSize + 4 ≤ 2 ^ 31) :
    Roomy initSize (start (.start supply) id clientConn u initSize) ∧
      (start (.start supply) id clientConn u initSize).view = Peer.start id clientConn u := by
  have hk := Mem.Requests.kept_start (Mem.sound_start hsupply)
  let s : Intake U := ⟨.start supply, id, clientConn, .empty, .init, .opened, u, []⟩
  have hstart : start (.start supply) id clientConn u initSize = s.makeRoom initSize := by
    unfold makeRoom
    rw [if_pos (show s.freeSize < initSize from hinit)]
    rfl
  obtain ⟨hkept, hview, hroom⟩ := makeRoom_view (s := s) hk hmax
  rw [hstart]
  exact ⟨⟨hkept, Or.inl hroom⟩, hview⟩

theorem Roomy.least_le {fewer : Nat} (hs : Roomy least s) (h : fewer ≤ least) : Roomy fewer s :=
  ⟨hs.kept, hs.room.imp_left h.trans⟩

/-- Every run does on the bytes what `Session` says, and what can be seen at its end is held. -/
theorem session_refined (push : U → Cmd → Error × U) {supply : Nat → Option (Nat → Byte)}
    (hsupply : ∀ k, supply k ≠ none) (id clientConn : Nat) (u : U) {initSize minSize : Nat} (hinit : 0 < initSize)
    (hmaxi : initSize + 4 ≤ 2 ^ 31) (hmaxm : minSize + 4 ≤ 2 ^ 31) (events : List (Event U))
    (hf : Each (step push minSize) Fits (start (.start supply) id clientConn u initSize) events) :
    let s := start (.start supply) id clientConn u initSize
    let t := events.foldl (step push minSize) s
    perform (act push) (Peer.start id clientConn u) (trace (step push minSize) actions s events) = some t.view ∧
      Mem.Sound t.heap (t.parser.inputb :: t.currentCmd.argv) := by
  obtain ⟨hroomy, hview⟩ := roomy_start hsupply id clientConn u hinit hmaxi
  have hkeeps : ∀ s e, Roomy 0 s → Fits s e → Roomy 0 (step push minSize s e) :=
    fun s e hs he => (roomy_step push hmaxm (Nat.zero_le _) hs e he).1
  have hroomy := hroomy.least_le (Nat.zero_le _)
  have hrun := each_run hkeeps events _ hroomy hf
  have hsound := hrun.kept.sound
  rw [List.append_nil] at hsound
  refine ⟨?_, hsound⟩
  rw [← hview]
  exact simulated hkeeps (fun s e hs he => (roomy_step push hmaxm (Nat.zero_le _) hs e he).2) events _ hroomy hf

/-- A command refused, and pushed again by a read of nothing. -/
theorem session_refined_refused :
    let push : Nat → Cmd → Error × Nat := fun n _ => if n = 0 then (.tryAgain, 0) else (.ok, n - 1)
    let events : List (Event Nat) := [.read [97, 32] [], .read [98, 10] [], .elsewhere 1, .reply [43], .read [] []]
    let s := start (.start fun _ => some fun _ => 0) 1 0 0 4
    let t := events.foldl (step push 2) s
    perform (act push) (Peer.start 1 0 0) (trace (step push 2) actions s events) = some t.view ∧
      Mem.Sound t.heap (t.parser.inputb :: t.currentCmd.argv) :=
  session_refined _ (fun _ => Option.some_ne_none _) 1 0 0 (by decide) (by decide) (by decide) _
    ⟨⟨by decide, by decide⟩, ⟨by decide, by decide⟩, trivial, trivial, ⟨by decide, by decide⟩, trivial⟩

/-- Over every run there is room to read, for the smaller of the two sizes at least, unless a
    command was refused last or the connection is to be closed. -/
theorem room_unless_refused (push : U → Cmd → Error × U) {supply : Nat → Option (Nat → Byte)}
    (hsupply : ∀ k, supply k ≠ none) (id clientConn : Nat) (u : U) {initSize minSize : Nat} (hinit : 0 < initSize)
    (hmin : 0 < minSize) (hmaxi : initSize + 4 ≤ 2 ^ 31) (hmaxm : minSize + 4 ≤ 2 ^ 31) (events : List (Event U))
    (hf : Each (step push minSize) Fits (start (.start supply) id clientConn u initSize) events) :
    let t := events.foldl (step push minSize) (start (.start supply) id clientConn u initSize)
    (0 < t.freeSize ∧ min initSize minSize ≤ t.freeSize) ∨ Peer.Refused t.calls ∨ t.conn.closing = true := by
  obtain ⟨hroomy, _⟩ := roomy_start hsupply id clientConn u hinit hmaxi
  have hrun := each_run (I := Roomy (min initSize minSize))
    (fun s e hs he => (roomy_step push hmaxm (Nat.min_le_right _ _) hs e he).1) events _
    (hroomy.least_le (Nat.min_le_left _ _)) hf
  exact hrun.room.imp_left fun hroom => ⟨Nat.lt_of_lt_of_le (Nat.lt_min.mpr ⟨hinit, hmin⟩) hroom, hroom⟩

/-- The read fills the buffer, and the loop comes to its end. -/
theorem room_unless_refused_full :
    let push : Nat → Cmd → Error × Nat := fun n _ => (.ok, n + 1)
    let events : List (Event Nat) := [.read [97, 32, 98, 10] [], .read [97, 32] []]
    let t := events.foldl (step push 2) (start (.start fun _ => some fun _ => 0) 1 0 0 4)
    (0 < t.freeSize ∧ min 4 2 ≤ t.freeSize) ∨ Peer.Refused t.calls ∨ t.conn.closing = true :=
  room_unless_refused _ (fun _ => Option.some_ne_none _) 1 0 0 (by decide) (by decide) (by decide) (by decide) _
    ⟨⟨by decide, by decide⟩, ⟨by decide, by decide⟩, trivial⟩

end Intake

end RedisProxy.Client
