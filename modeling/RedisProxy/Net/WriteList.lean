/-
  RedisProxy.Net.WriteList — `Event::writeEvents` and `HandleWriteEvents` (netio.cpp).

  Events come and go (`Reactor`): created, given a descriptor by `Connect` or `Accept`,
  called, closed, destroyed. An address is free again once its event is destroyed.

  `SetWritable` keeps the list and the bit together. `RemoveNotify` clears `events` as a
  whole and leaves the list as it is, and `Close` and the destructor only call that.

  Proved: `write_list_exact`. The list holds each pending writer once, and nothing else,
  and `HandleWriteEvents` calls just these, in every state of a run, if and only if every
  step meets `Safe`: `RemoveNotify` finds no pending writer whose descriptor is watched,
  closed and destroyed events are no writers and a closed event becomes none.
-/

import RedisProxy.Net.Epoll
import Mathlib.Data.List.Nodup

namespace RedisProxy.Net

open Lib Wire

/-! ## What the calls leave of the list -/

namespace Poll

@[simp] theorem ctl_writeEvents (p : Poll) (op : Op) (fd : Int) (m : Mask) :
    (p.ctl op fd m).2.writeEvents = p.writeEvents := by
  unfold ctl
  split <;> rfl

@[simp] theorem ctl_fresh (p : Poll) (op : Op) (fd : Int) (m : Mask) : (p.ctl op fd m).2.fresh = p.fresh := by
  unfold ctl
  split <;> rfl

end Poll

namespace Event

variable (e : Event) (p : Poll)

@[simp] theorem attach_writeEvents : (e.attach p).2.writeEvents = p.writeEvents := by
  unfold attach
  split
  · rfl
  · split
    · rfl
    · exact p.ctl_writeEvents _ _ _

@[simp] theorem attach_fresh : (e.attach p).2.fresh = p.fresh := by
  unfold attach
  split
  · rfl
  · split
    · rfl
    · exact p.ctl_fresh _ _ _

/-- DEL is refused and nothing changes, or `events` is cleared. -/
theorem removeNotify_cases :
    (∃ errno, e.removeNotify p = (.sys errno, e, p) ∧ (e.fd < 0 ∨ p.kernel e.fd = none)) ∨
      (e.removeNotify p = (.ok, { e with events := .zero }, p.closeFd e.fd) ∧ 0 ≤ e.fd ∧ p.kernel e.fd ≠ none) := by
  unfold removeNotify Poll.ctl epollCtl
  by_cases hfd : e.fd < 0
  · rw [if_pos hfd]
    exact Or.inl ⟨ebadf, rfl, Or.inl hfd⟩
  · rw [if_neg hfd]
    cases h : p.kernel e.fd with
    | none => exact Or.inl ⟨enoent, rfl, Or.inr rfl⟩
    | some m => exact Or.inr ⟨rfl, by omega, Option.some_ne_none m⟩

@[simp] theorem removeNotify_writeEvents : (e.removeNotify p).2.2.writeEvents = p.writeEvents := by
  rcases e.removeNotify_cases p with ⟨errno, h, -⟩ | ⟨h, -⟩
  · rw [h]
  · rw [h]
    rfl

@[simp] theorem removeNotify_fresh : (e.removeNotify p).2.2.fresh = p.fresh := by
  rcases e.removeNotify_cases p with ⟨errno, h, -⟩ | ⟨h, -⟩
  · rw [h]
  · rw [h]
    rfl

@[simp] theorem removeNotify_this : (e.removeNotify p).2.1.this = e.this := by
  rcases e.removeNotify_cases p with ⟨errno, h, -⟩ | ⟨h, -⟩
  · rw [h]
  · rw [h]

/-- What is a writer still was one, at its place. -/
theorem removeNotify_out (h : (e.removeNotify p).2.1.events.epollOut = true) :
    e.events.epollOut = true ∧ (e.removeNotify p).2.1.writeListPos = e.writeListPos := by
  rcases e.removeNotify_cases p with ⟨errno, hr, -⟩ | ⟨hr, -⟩
  · rw [hr] at h ⊢
    exact ⟨h, rfl⟩
  · rw [hr] at h
    exact absurd h Bool.false_ne_true

/-- `SetWritable` finds the bit as it is to be, appends a node, or erases the event's own. -/
theorem setWritable_cases (flag : Bool) :
    (e.events.epollOut = flag ∧ e.setWritable p flag = (e, p)) ∨
    (flag = true ∧ e.events.epollOut = false ∧ e.setWritable p flag =
      ({ e with events := e.events.put true .epollOut, writeListPos := p.fresh }, p.insert e.this)) ∨
    (flag = false ∧ e.events.epollOut = true ∧ e.setWritable p flag =
      ({ e with events := e.events.put false .epollOut }, p.erase e.writeListPos)) := by
  cases hout : e.events.epollOut with
  | true =>
    cases flag with
    | true => exact Or.inl ⟨rfl, by simp [setWritable, Mask.has, hout]⟩
    | false => exact Or.inr (Or.inr ⟨rfl, rfl, by simp [setWritable, Mask.has, hout]⟩)
  | false =>
    cases flag with
    | true => exact Or.inr (Or.inl ⟨rfl, rfl, by simp [setWritable, Mask.has, hout]⟩)
    | false => exact Or.inl ⟨rfl, by simp [setWritable, Mask.has, hout]⟩

/-- `Close` is `RemoveNotify` and the descriptor gone. -/
theorem close_eq : e.close p = ((e.removeNotify p).1, (e.removeNotify p).2.1,
    (e.removeNotify p).2.2.closeFd (e.removeNotify p).2.1.fd) := rfl

/-- `SetReadable` changes nothing but the one bit and the kernel's set. -/
theorem setReadable_keeps (flag : Bool) :
    (e.setReadable p flag).2.1 = { e with events := e.events.put flag .epollIn } ∧
      (e.setReadable p flag).2.2.writeEvents = p.writeEvents ∧ (e.setReadable p flag).2.2.fresh = p.fresh := by
  unfold setReadable operateNotify
  split
  · rename_i h
    subst h
    exact ⟨rfl, rfl, rfl⟩
  · dsimp only
    split
    · exact ⟨rfl, rfl, rfl⟩
    · exact ⟨rfl, p.ctl_writeEvents _ _ _, p.ctl_fresh _ _ _⟩

end Event

/-- An event that has not been destroyed. -/
structure Obj where
  event : Event
  /-- Closed, and given no descriptor since. -/
  closed : Bool
  deriving DecidableEq, Repr

structure Reactor where
  poll : Poll
  objs : Nat → Option Obj

namespace Reactor

inductive Act where
  /-- `new Event`, with what is in `writeListPos`. -/
  | create (a writeListPos : Nat)
  /-- The end of `Connect` and `Accept`: the descriptor, then `Attach`. -/
  | opens (a : Nat) (fd : Int)
  | setWritable (a : Nat) (flag : Bool)
  | setReadable (a : Nat) (flag : Bool)
  | removeNotify (a : Nat)
  | close (a : Nat)
  | destroy (a : Nat)
  deriving DecidableEq, Repr

def start (kernel : Kernel) : Reactor := ⟨⟨kernel, [], 0⟩, fun _ => none⟩

/-- A call on the event at `a`; there is none where no event is. -/
def on (w : Reactor) (a : Nat) (f : Obj → Poll → Obj × Poll) : Reactor :=
  match w.objs a with
  | none => w
  | some o => ⟨(f o w.poll).2, Function.update w.objs a (some (f o w.poll).1)⟩

def step (w : Reactor) : Act → Reactor
  | .create a writeListPos =>
    match w.objs a with
    | none => { w with objs := Function.update w.objs a (some ⟨.create a writeListPos, false⟩) }
    | some _ => w
  | .opens a fd =>
    w.on a fun o p => (⟨{ o.event with fd := fd }, false⟩, ({ o.event with fd := fd }.attach p).2)
  | .setWritable a flag =>
    w.on a fun o p => ({ o with event := (o.event.setWritable p flag).1 }, (o.event.setWritable p flag).2)
  | .setReadable a flag =>
    w.on a fun o p => ({ o with event := (o.event.setReadable p flag).2.1 }, (o.event.setReadable p flag).2.2)
  | .removeNotify a =>
    w.on a fun o p => ({ o with event := (o.event.removeNotify p).2.1 }, (o.event.removeNotify p).2.2)
  | .close a =>
    w.on a fun o p => (⟨(o.event.close p).2.1, true⟩, (o.event.close p).2.2)
  | .destroy a =>
    match w.objs a with
    | none => w
    | some o =>
      ⟨if o.event.fd ≠ -1 then (o.event.removeNotify w.poll).2.2 else w.poll, Function.update w.objs a none⟩

/-! ## `HandleWriteEvents` -/

/-- What `OnWritable` does with its event: nothing (there is more to write), `SetWritable( false )`,
    or `Close` and with it the destruction. -/
inductive Outcome where
  | keeps
  | drains
  | closes
  deriving DecidableEq, Repr

def onWritable (w : Reactor) (a : Nat) : Outcome → Reactor
  | .keeps => w
  | .drains => w.step (.setWritable a false)
  | .closes => (w.step (.close a)).step (.destroy a)

/-- `++it`: the place after `pos`. -/
def next (nodes : List Node) (pos : Nat) : Option Nat :=
  ((nodes.dropWhile fun n => n.pos ≠ pos).tail.head?).map Node.pos

/-- From the place `it` on; the calls made so far. -/
def handleLoop (outcome : Nat → Outcome) : Nat → Option Nat → Reactor → List Nat → Reactor × List Nat
  | 0, _, w, calls => (w, calls)
  | _ + 1, none, w, calls => (w, calls)
  | n + 1, some it, w, calls =>
    match w.poll.writeEvents.find? fun n => n.pos = it with
    | none => (w, calls)
    | some node =>
      handleLoop outcome n (next w.poll.writeEvents it) (w.onWritable node.evt (outcome node.evt)) (calls ++ [node.evt])

def handleWriteEvents (outcome : Nat → Outcome) (w : Reactor) : Reactor × List Nat :=
  handleLoop outcome w.poll.writeEvents.length (w.poll.writeEvents.head?.map Node.pos) w []

/-! ## What the list should hold -/

/-- The events in the list. -/
def listed (w : Reactor) : List Nat := w.poll.writeEvents.map Node.evt

def Pending (w : Reactor) (a : Nat) : Prop := ∃ o, w.objs a = some o ∧ o.event.events.epollOut = true

structure Exact (w : Reactor) : Prop where
  once : w.listed.Nodup
  pending : ∀ a, a ∈ w.listed ↔ w.Pending a
  live : ∀ a o, w.objs a = some o → o.closed = true → a ∉ w.listed
  calls : ∀ outcome, (w.handleWriteEvents outcome).2.Nodup ∧
    ∀ a, a ∈ (w.handleWriteEvents outcome).2 ↔ w.Pending a

/-- The event at `a` is no pending writer. -/
def Quiet (w : Reactor) (a : Nat) : Prop := ∀ o, w.objs a = some o → o.event.events.epollOut = false

def Safe (w : Reactor) : Act → Prop
  | .setWritable a true => ∀ o, w.objs a = some o → o.closed = false
  | .removeNotify a => w.Quiet a ∨ ∀ o, w.objs a = some o → o.event.fd < 0 ∨ w.poll.kernel o.event.fd = none
  | .close a => w.Quiet a
  | .destroy a => w.Quiet a
  | _ => True

/-- Always so: the places are the list's own, and a pending writer's place is its own. -/
structure Placed (w : Reactor) : Prop where
  this : ∀ a o, w.objs a = some o → o.event.this = a
  fresh : ∀ n ∈ w.poll.writeEvents, n.pos < w.poll.fresh
  places : (w.poll.writeEvents.map Node.pos).Nodup
  own : ∀ a o, w.objs a = some o → o.event.events.epollOut = true → ⟨o.event.writeListPos, a⟩ ∈ w.poll.writeEvents

variable {w : Reactor} {a : Nat} {o : Obj}

theorem on_eq (h : w.objs a = some o) (f : Obj → Poll → Obj × Poll) :
    w.on a f = ⟨(f o w.poll).2, Function.update w.objs a (some (f o w.poll).1)⟩ := by
  unfold on
  rw [h]

theorem on_none (h : w.objs a = none) (f : Obj → Poll → Obj × Poll) : w.on a f = w := by
  unfold on
  rw [h]

theorem this_update (h : w.Placed) {v : Option Obj} (hv : ∀ o, v = some o → o.event.this = a) :
    ∀ b q, Function.update w.objs a v b = some q → q.event.this = b := by
  intro b q hb
  by_cases hab : b = a
  · subst hab
    exact hv q (by simpa using hb)
  · exact h.this b q (by simpa [hab] using hb)

theorem own_update {v : Option Obj} {list : List Node}
    (hv : ∀ o, v = some o → o.event.events.epollOut = true → (⟨o.event.writeListPos, a⟩ : Node) ∈ list)
    (hothers : ∀ b q, b ≠ a → w.objs b = some q → q.event.events.epollOut = true →
      (⟨q.event.writeListPos, b⟩ : Node) ∈ list) :
    ∀ b q, Function.update w.objs a v b = some q → q.event.events.epollOut = true →
      (⟨q.event.writeListPos, b⟩ : Node) ∈ list := by
  intro b q hb hq
  by_cases hab : b = a
  · subst hab
    exact hv q (by simpa using hb) hq
  · exact hothers b q hab (by simpa [hab] using hb) hq

/-- An object replaced, the list as it was. -/
theorem placed_calm (h : w.Placed) (ho : w.objs a = some o) {o' : Obj} {p' : Poll}
    (hlist : p'.writeEvents = w.poll.writeEvents) (hfresh : p'.fresh = w.poll.fresh)
    (hthis : o'.event.this = o.event.this) (hout : o'.event.events.epollOut = true →
      o.event.events.epollOut = true ∧ o'.event.writeListPos = o.event.writeListPos) :
    Placed ⟨p', Function.update w.objs a (some o')⟩ := by
  refine ⟨?_, ?_, ?_, ?_⟩
  · refine this_update h fun q hq => ?_
    obtain rfl := Option.some.inj hq
    exact hthis.trans (h.this _ _ ho)
  · intro n hn
    have hlt := h.fresh n (hlist ▸ hn)
    exact hfresh ▸ hlt
  · show (p'.writeEvents.map Node.pos).Nodup
    rw [hlist]
    exact h.places
  · show ∀ b q, _ → _ → _ ∈ p'.writeEvents
    rw [hlist]
    refine own_update (fun q hq hon => ?_) fun b q _ hb hon => h.own b q hb hon
    obtain rfl := Option.some.inj hq
    obtain ⟨hwas, hpos⟩ := hout hon
    rw [hpos]
    exact h.own _ _ ho hwas

/-- An object that is no writer put there, or one taken away. -/
theorem placed_quiet (h : w.Placed) {p' : Poll} {v : Option Obj} (hlist : p'.writeEvents = w.poll.writeEvents)
    (hfresh : p'.fresh = w.poll.fresh)
    (hv : ∀ o, v = some o → o.event.this = a ∧ o.event.events.epollOut = false) :
    Placed ⟨p', Function.update w.objs a v⟩ := by
  refine ⟨?_, ?_, ?_, ?_⟩
  · exact this_update h fun q hq => (hv q hq).1
  · intro n hn
    have hlt := h.fresh n (hlist ▸ hn)
    exact hfresh ▸ hlt
  · show (p'.writeEvents.map Node.pos).Nodup
    rw [hlist]
    exact h.places
  · show ∀ b q, _ → _ → _ ∈ p'.writeEvents
    rw [hlist]
    refine own_update (fun q hq hon => ?_) fun b q _ hb hon => h.own b q hb hon
    rw [(hv q hq).2] at hon
    exact absurd hon Bool.false_ne_true

theorem placed_insert (h : w.Placed) (ho : w.objs a = some o) :
    Placed ⟨w.poll.insert a, Function.update w.objs a
      (some { o with event := { o.event with
        events := o.event.events.put true .epollOut, writeListPos := w.poll.fresh } })⟩ := by
  refine ⟨?_, ?_, ?_, ?_⟩
  · refine this_update h fun q hq => ?_
    obtain rfl := Option.some.inj hq
    exact h.this a o ho
  · intro n hn
    show n.pos < w.poll.fresh + 1
    rcases List.mem_append.mp hn with hn | hn
    · exact Nat.lt_succ_of_lt (h.fresh n hn)
    · obtain rfl := List.mem_singleton.mp hn
      exact Nat.lt_succ_self _
  · show ((w.poll.writeEvents ++ [(⟨w.poll.fresh, a⟩ : Node)]).map Node.pos).Nodup
    rw [List.map_append, List.nodup_append]
    refine ⟨h.places, by simp, ?_⟩
    intro x hx y hy
    obtain ⟨n, hn, rfl⟩ := List.mem_map.mp hx
    obtain rfl := List.mem_singleton.mp hy
    exact Nat.ne_of_lt (h.fresh n hn)
  · show ∀ b q, _ → _ → _ ∈ w.poll.writeEvents ++ [(⟨w.poll.fresh, a⟩ : Node)]
    refine own_update (fun q hq _ => ?_) fun b q _ hb hon => List.mem_append.mpr (Or.inl (h.own b q hb hon))
    obtain rfl := Option.some.inj hq
    exact List.mem_append.mpr (Or.inr (List.mem_singleton.mpr rfl))

/-- The node of a pending writer erased: no other event's. -/
theorem placed_erase (h : w.Placed) (ho : w.objs a = some o) (hout : o.event.events.epollOut = true) :
    Placed ⟨w.poll.erase o.event.writeListPos, Function.update w.objs a
      (some { o with event := { o.event with events := o.event.events.put false .epollOut } })⟩ := by
  refine ⟨?_, ?_, ?_, ?_⟩
  · refine this_update h fun q hq => ?_
    obtain rfl := Option.some.inj hq
    exact h.this a o ho
  · intro n hn
    exact h.fresh n (List.mem_of_mem_filter hn)
  · exact h.places.sublist (List.filter_sublist.map Node.pos)
  · refine own_update (fun q hq hon => ?_) fun b q hab hb hon => ?_
    · obtain rfl := Option.some.inj hq
      exact absurd hon Bool.false_ne_true
    · refine List.mem_filter.mpr ⟨h.own b q hb hon, ?_⟩
      -- two events at one place would be one event
      have hne : q.event.writeListPos ≠ o.event.writeListPos := by
        intro heq
        have hnode := List.inj_on_of_nodup_map h.places (h.own b q hb hon) (h.own a o ho hout) heq
        exact hab (Node.mk.inj hnode).2
      simpa using hne

theorem placed_step (h : w.Placed) (act : Act) : (w.step act).Placed := by
  cases act with
  | create a writeListPos =>
    rw [step]
    split
    · refine placed_quiet h rfl rfl fun q hq => ?_
      obtain rfl := Option.some.inj hq
      exact ⟨rfl, rfl⟩
    · exact h
  | opens a fd =>
    cases ho : w.objs a with
    | none => rw [step, on_none ho]; exact h
    | some o =>
      rw [step, on_eq ho]
      exact placed_calm h ho (Event.attach_writeEvents _ _) (Event.attach_fresh _ _) rfl fun hq => ⟨hq, rfl⟩
  | setWritable a flag =>
    cases ho : w.objs a with
    | none => rw [step, on_none ho]; exact h
    | some o =>
      rw [step, on_eq ho]
      rcases o.event.setWritable_cases w.poll flag with ⟨-, hs⟩ | ⟨-, -, hs⟩ | ⟨-, hout, hs⟩
      · rw [hs]
        exact placed_calm h ho rfl rfl rfl fun hq => ⟨hq, rfl⟩
      · have hins : w.poll.insert o.event.this = w.poll.insert a := by rw [h.this a o ho]
        rw [hs, hins]
        exact placed_insert h ho
      · rw [hs]
        exact placed_erase h ho hout
  | setReadable a flag =>
    cases ho : w.objs a with
    | none => rw [step, on_none ho]; exact h
    | some o =>
      obtain ⟨hev, hlist, hfresh⟩ := o.event.setReadable_keeps w.poll flag
      rw [step, on_eq ho]
      refine placed_calm h ho hlist hfresh ?_ ?_
      · rw [hev]
      · intro hq
        rw [hev] at hq ⊢
        exact ⟨hq, rfl⟩
  | removeNotify a =>
    cases ho : w.objs a with
    | none => rw [step, on_none ho]; exact h
    | some o =>
      rw [step, on_eq ho]
      exact placed_calm h ho (Event.removeNotify_writeEvents _ _) (Event.removeNotify_fresh _ _)
        (Event.removeNotify_this _ _) (Event.removeNotify_out _ _)
  | close a =>
    cases ho : w.objs a with
    | none => rw [step, on_none ho]; exact h
    | some o =>
      rw [step, on_eq ho]
      exact placed_calm h ho (Event.removeNotify_writeEvents _ _) (Event.removeNotify_fresh _ _)
        (Event.removeNotify_this _ _) (Event.removeNotify_out _ _)
  | destroy a =>
    rw [step]
    split
    · exact h
    · rename_i o ho
      have hlist : (if o.event.fd ≠ -1 then (o.event.removeNotify w.poll).2.2 else w.poll).writeEvents =
          w.poll.writeEvents := by split <;> simp
      have hfresh : (if o.event.fd ≠ -1 then (o.event.removeNotify w.poll).2.2 else w.poll).fresh =
          w.poll.fresh := by split <;> simp
      exact placed_quiet h hlist hfresh fun q hq => absurd hq (Option.some_ne_none q).symm

/-! ## The calls of `HandleWriteEvents` -/

/-- A call erases its own node or none. -/
theorem onWritable_list (h : w.Placed) (honce : w.listed.Nodup) {node : Node} (hn : node ∈ w.poll.writeEvents)
    (c : Outcome) :
    (w.onWritable node.evt c).poll.writeEvents = w.poll.writeEvents ∨
      (w.onWritable node.evt c).poll.writeEvents = w.poll.writeEvents.filter fun n => n.pos ≠ node.pos := by
  cases ho : w.objs node.evt with
  | none => cases c <;> simp [onWritable, step, on, ho]
  | some o =>
    cases c with
    | keeps => exact Or.inl rfl
    | drains =>
      rw [onWritable, step, on_eq ho]
      rcases o.event.setWritable_cases w.poll false with ⟨-, hs⟩ | ⟨hf, -⟩ | ⟨-, hout, hs⟩
      · rw [hs]
        exact Or.inl rfl
      · exact absurd hf Bool.false_ne_true
      · -- the pending writer's own place is the place of this node
        have hnode := List.inj_on_of_nodup_map honce (h.own _ o ho hout) hn rfl
        have hpos : o.event.writeListPos = node.pos := by rw [← hnode]
        rw [hs]
        exact Or.inr (by rw [← hpos]; rfl)
    | closes =>
      rw [onWritable, step, on_eq ho, step]
      simp only [Function.update_self]
      refine Or.inl ?_
      split
      · rw [Event.removeNotify_writeEvents, Event.close_eq, Poll.closeFd_writeEvents, Event.removeNotify_writeEvents]
      · rw [Event.close_eq, Poll.closeFd_writeEvents, Event.removeNotify_writeEvents]

theorem placed_onWritable (h : w.Placed) (a : Nat) (c : Outcome) : (w.onWritable a c).Placed := by
  cases c with
  | keeps => exact h
  | drains => exact placed_step h (.setWritable a false)
  | closes => exact placed_step (placed_step h (.close a)) (.destroy a)

theorem filter_pos {pre rest : List Node} {node : Node} (h : ((pre ++ node :: rest).map Node.pos).Nodup) :
    (pre ++ node :: rest).filter (fun n => n.pos ≠ node.pos) = pre ++ rest := by
  have hne : ∀ n, n ∈ pre ++ rest → n.pos ≠ node.pos := by
    intro n hn heq
    have hperm : (node :: (pre ++ rest)).Perm (pre ++ node :: rest) := List.perm_middle.symm
    have hnd := ((hperm.map Node.pos).nodup_iff).mpr h
    rw [List.map_cons, List.nodup_cons] at hnd
    exact hnd.1 (List.mem_map.mpr ⟨n, hn, heq⟩)
  rw [List.filter_append, List.filter_cons_of_neg (by simp), ← List.filter_append]
  exact List.filter_eq_self.mpr fun n hn => by simpa using hne n hn

theorem next_eq {pre rest : List Node} {node : Node} (h : ((pre ++ node :: rest).map Node.pos).Nodup) :
    next (pre ++ node :: rest) node.pos = rest.head?.map Node.pos := by
  have hdrop : (pre ++ node :: rest).dropWhile (fun n => n.pos ≠ node.pos) = node :: rest := by
    rw [List.dropWhile_append_of_pos]
    · simp
    · intro n hn
      rw [List.map_append, List.nodup_append] at h
      have hne := h.2.2 _ (List.mem_map_of_mem hn) node.pos (by simp)
      simpa using hne
  rw [next, hdrop]
  rfl

theorem find_eq {pre rest : List Node} {node : Node} (h : ((pre ++ node :: rest).map Node.pos).Nodup) :
    (pre ++ node :: rest).find? (fun n => n.pos = node.pos) = some node := by
  rw [List.find?_append]
  have hpre : pre.find? (fun n => n.pos = node.pos) = none := by
    refine List.find?_eq_none.mpr fun n hn => ?_
    rw [List.map_append, List.nodup_append] at h
    have hne := h.2.2 _ (List.mem_map_of_mem hn) node.pos (by simp)
    simpa using hne
  rw [hpre]
  simp

/-- From a place on, the loop calls the events from there on: what an `OnWritable` erases is
    behind it. -/
theorem handleLoop_calls (outcome : Nat → Outcome) (rest : List Node) :
    ∀ (pre : List Node) (w : Reactor) (calls : List Nat), w.Placed → w.listed.Nodup →
      w.poll.writeEvents = pre ++ rest →
      (handleLoop outcome rest.length (rest.head?.map Node.pos) w calls).2 = calls ++ rest.map Node.evt := by
  induction rest with
  | nil =>
    intro pre w calls _ _ _
    simp [handleLoop]
  | cons node rest ih =>
    intro pre w calls h honce hlist
    have hplaces := h.places
    rw [hlist] at hplaces
    have hn : node ∈ w.poll.writeEvents := by rw [hlist]; simp
    have hplaced := placed_onWritable h node.evt (outcome node.evt)
    simp only [List.length_cons, List.head?_cons, Option.map_some, handleLoop, hlist, find_eq hplaces,
      next_eq hplaces]
    rcases onWritable_list h honce hn (outcome node.evt) with hkeep | herase
    · rw [ih (pre ++ [node]) _ _ hplaced]
      · simp
      · rw [listed, hkeep]
        exact honce
      · rw [hkeep, hlist]
        simp
    · rw [hlist, filter_pos hplaces] at herase
      rw [ih pre _ _ hplaced]
      · simp
      · rw [listed, herase]
        rw [listed, hlist] at honce
        exact honce.sublist (((List.sublist_cons_self node rest).append_left pre).map Node.evt)
      · exact herase

theorem handleWriteEvents_calls (h : w.Placed) (honce : w.listed.Nodup) (outcome : Nat → Outcome) :
    (w.handleWriteEvents outcome).2 = w.listed := by
  have := handleLoop_calls outcome w.poll.writeEvents [] w [] h honce rfl
  simpa [handleWriteEvents, listed] using this

theorem exact_of (h : w.Placed) (once : w.listed.Nodup) (pending : ∀ a, a ∈ w.listed ↔ w.Pending a)
    (live : ∀ a o, w.objs a = some o → o.closed = true → a ∉ w.listed) : w.Exact := by
  refine ⟨once, pending, live, ?_⟩
  intro outcome
  rw [handleWriteEvents_calls h once outcome]
  exact ⟨once, pending⟩

/-! ## One step -/

/-- An object replaced, its write bit and the list as they were. -/
theorem exact_calm (h : w.Exact) (ho : w.objs a = some o) {o' : Obj} {p' : Poll}
    (hp : Placed ⟨p', Function.update w.objs a (some o')⟩) (hlist : p'.writeEvents = w.poll.writeEvents)
    (hout : o'.event.events.epollOut = o.event.events.epollOut)
    (hlive : o'.closed = true → o.closed = true ∨ o.event.events.epollOut = false) :
    Exact ⟨p', Function.update w.objs a (some o')⟩ := by
  have hlisted : listed ⟨p', Function.update w.objs a (some o')⟩ = w.listed := by rw [listed, hlist]; rfl
  refine exact_of hp ?_ ?_ ?_
  · rw [hlisted]
    exact h.once
  · intro b
    rw [hlisted, h.pending]
    by_cases hab : b = a
    · subst hab
      simp [Pending, ho, hout]
    · simp [Pending, hab]
  · intro b q hb hq
    rw [hlisted]
    by_cases hab : b = a
    · subst hab
      obtain rfl : o' = q := by simpa using hb
      rcases hlive hq with hc | hf
      · exact h.live _ _ ho hc
      · intro hmem
        obtain ⟨q, hq, hout⟩ := (h.pending _).mp hmem
        rw [ho] at hq
        obtain rfl := Option.some.inj hq
        rw [hf] at hout
        exact Bool.false_ne_true hout
    · exact h.live b q (by simpa [hab] using hb) hq

/-- An object that is no writer, and not in the list, taken away or put there. -/
theorem exact_quiet (h : w.Exact) (ha : a ∉ w.listed) {p' : Poll} {v : Option Obj}
    (hp : Placed ⟨p', Function.update w.objs a v⟩) (hlist : p'.writeEvents = w.poll.writeEvents)
    (hv : ∀ o, v = some o → o.event.events.epollOut = false) : Exact ⟨p', Function.update w.objs a v⟩ := by
  have hlisted : listed ⟨p', Function.update w.objs a v⟩ = w.listed := by rw [listed, hlist]; rfl
  refine exact_of hp ?_ ?_ ?_
  · rw [hlisted]
    exact h.once
  · intro b
    rw [hlisted]
    by_cases hab : b = a
    · subst hab
      refine ⟨fun hmem => absurd hmem ha, ?_⟩
      rintro ⟨o, ho, hout⟩
      have hf := hv o (by simpa using ho)
      rw [hf] at hout
      exact absurd hout Bool.false_ne_true
    · rw [h.pending]
      simp [Pending, hab]
  · intro b q hb hq
    rw [hlisted]
    by_cases hab : b = a
    · subst hab
      exact ha
    · exact h.live b q (by simpa [hab] using hb) hq

theorem quiet_none (ho : w.objs a = none) : w.Quiet a := by
  intro o hq
  rw [ho] at hq
  exact absurd hq (Option.some_ne_none o).symm

theorem quiet_some (ho : w.objs a = some o) (hout : o.event.events.epollOut = false) : w.Quiet a := by
  intro q hq
  rw [ho] at hq
  obtain rfl := Option.some.inj hq
  exact hout

theorem quiet_iff (h : w.Exact) : w.Quiet a ↔ a ∉ w.listed := by
  constructor
  · intro hq hmem
    obtain ⟨o, ho, hout⟩ := (h.pending a).mp hmem
    rw [hq o ho] at hout
    exact Bool.false_ne_true hout
  · intro ha o ho
    by_contra hout
    exact ha ((h.pending a).mpr ⟨o, ho, by simpa using hout⟩)

theorem exact_insert (hw : w.Placed) (h : w.Exact) (ho : w.objs a = some o) (hout : o.event.events.epollOut = false)
    (hopen : o.closed = false) {e' : Event} (he : e'.events.epollOut = true)
    (hp : Placed ⟨w.poll.insert o.event.this, Function.update w.objs a (some { o with event := e' })⟩) :
    Exact ⟨w.poll.insert o.event.this, Function.update w.objs a (some { o with event := e' })⟩ := by
  have hlisted : listed ⟨w.poll.insert o.event.this, Function.update w.objs a (some { o with event := e' })⟩ =
      w.listed ++ [a] := by
    rw [hw.this a o ho]
    simp [listed, Poll.insert]
  have ha : a ∉ w.listed := (quiet_iff h).mp (quiet_some ho hout)
  refine exact_of hp ?_ ?_ ?_
  · rw [hlisted, List.nodup_append]
    refine ⟨h.once, by simp, ?_⟩
    intro x hx y hy
    obtain rfl := List.mem_singleton.mp hy
    exact fun heq => ha (heq ▸ hx)
  · intro b
    rw [hlisted, List.mem_append, List.mem_singleton]
    by_cases hab : b = a
    · subst hab
      simp [Pending, he]
    · simp [Pending, hab, h.pending]
  · intro b q hb hq
    rw [hlisted, List.mem_append, List.mem_singleton]
    by_cases hab : b = a
    · subst hab
      obtain rfl : _ = q := by simpa using hb
      rw [hopen] at hq
      exact absurd hq Bool.false_ne_true
    · have := h.live b q (by simpa [hab] using hb) hq
      simp [hab, this]

theorem exact_erase (hw : w.Placed) (h : w.Exact) (ho : w.objs a = some o) (hout : o.event.events.epollOut = true)
    {e' : Event} (he : e'.events.epollOut = false)
    (hp : Placed ⟨w.poll.erase o.event.writeListPos, Function.update w.objs a (some { o with event := e' })⟩) :
    Exact ⟨w.poll.erase o.event.writeListPos, Function.update w.objs a (some { o with event := e' })⟩ := by
  have hown := hw.own a o ho hout
  -- the one node of the event is the one erased
  have hlisted : ∀ b, b ∈ listed ⟨w.poll.erase o.event.writeListPos,
      Function.update w.objs a (some { o with event := e' })⟩ ↔ b ∈ w.listed ∧ b ≠ a := by
    intro b
    simp only [listed, Poll.erase, List.mem_map, List.mem_filter, decide_eq_true_eq]
    constructor
    · rintro ⟨n, ⟨hn, hpos⟩, rfl⟩
      refine ⟨⟨n, hn, rfl⟩, fun heq => hpos ?_⟩
      have hnode := List.inj_on_of_nodup_map h.once hn hown heq
      rw [hnode]
    · rintro ⟨⟨n, hn, rfl⟩, hne⟩
      refine ⟨n, ⟨hn, fun hpos => hne ?_⟩, rfl⟩
      have hnode := List.inj_on_of_nodup_map hw.places hn hown hpos
      rw [hnode]
  refine exact_of hp ?_ ?_ ?_
  · exact h.once.sublist (List.filter_sublist.map Node.evt)
  · intro b
    rw [hlisted, h.pending]
    by_cases hab : b = a
    · subst hab
      simp [Pending, he]
    · simp [Pending, hab]
  · intro b q hb hq
    rw [hlisted]
    rintro ⟨hmem, hne⟩
    exact h.live b q (by simpa [hne] using hb) hq hmem

theorem exact_create (hp : w.Placed) (h : w.Exact) (a pos : Nat) : (w.step (.create a pos)).Exact := by
  have hplaced := placed_step hp (.create a pos)
  rw [step] at hplaced ⊢
  split
  · rename_i ho
    rw [ho] at hplaced
    refine exact_quiet h ((quiet_iff h).mp (quiet_none ho)) hplaced rfl fun o hq => ?_
    obtain rfl := Option.some.inj hq
    rfl
  · exact h

theorem exact_opens (hp : w.Placed) (h : w.Exact) (a : Nat) (fd : Int) : (w.step (.opens a fd)).Exact := by
  have hplaced := placed_step hp (.opens a fd)
  cases ho : w.objs a with
  | none => rw [step, on_none ho]; exact h
  | some o =>
    rw [step, on_eq ho] at hplaced ⊢
    exact exact_calm h ho hplaced (Event.attach_writeEvents _ _) rfl fun hc => absurd hc Bool.false_ne_true

theorem exact_setReadable (hp : w.Placed) (h : w.Exact) (a : Nat) (flag : Bool) :
    (w.step (.setReadable a flag)).Exact := by
  have hplaced := placed_step hp (.setReadable a flag)
  cases ho : w.objs a with
  | none => rw [step, on_none ho]; exact h
  | some o =>
    obtain ⟨hev, hlist, hfresh⟩ := o.event.setReadable_keeps w.poll flag
    rw [step, on_eq ho] at hplaced ⊢
    refine exact_calm h ho hplaced hlist ?_ fun hc => Or.inl hc
    rw [hev]
    rfl

/-- A closed event must not become a writer. -/
theorem exact_enable_iff (hp : w.Placed) (h : w.Exact) (a : Nat) :
    (w.step (.setWritable a true)).Exact ↔ ∀ o, w.objs a = some o → o.closed = false := by
  have hplaced := placed_step hp (.setWritable a true)
  cases ho : w.objs a with
  | none =>
    rw [step, on_none ho]
    exact ⟨fun _ o hq => absurd hq (Option.some_ne_none o).symm, fun _ => h⟩
  | some o =>
    rw [step, on_eq ho] at hplaced ⊢
    rcases o.event.setWritable_cases w.poll true with ⟨hsame, hs⟩ | ⟨-, hout, hs⟩ | ⟨hflag, -, -⟩
    · rw [hs] at hplaced ⊢
      refine ⟨fun _ q hq => ?_, fun _ => exact_calm h ho hplaced rfl rfl Or.inl⟩
      by_contra hc
      exact h.live a q (ho.trans hq) (by simpa using hc) ((h.pending a).mpr ⟨o, ho, hsame⟩)
    · rw [hs] at hplaced ⊢
      refine ⟨fun hex q hq => ?_, fun hsafe => exact_insert hp h ho hout (hsafe o rfl) rfl hplaced⟩
      obtain rfl := Option.some.inj hq
      by_contra hc
      refine hex.live a _ (Function.update_self _ _ _) (by simpa using hc) ?_
      have hthis := hp.this a o ho
      simp [listed, Poll.insert, hthis]
    · exact absurd hflag.symm Bool.false_ne_true

theorem exact_disable (hp : w.Placed) (h : w.Exact) (a : Nat) : (w.step (.setWritable a false)).Exact := by
  have hplaced := placed_step hp (.setWritable a false)
  cases ho : w.objs a with
  | none => rw [step, on_none ho]; exact h
  | some o =>
    rw [step, on_eq ho] at hplaced ⊢
    rcases o.event.setWritable_cases w.poll false with ⟨-, hs⟩ | ⟨hflag, -, -⟩ | ⟨-, hout, hs⟩
    · rw [hs] at hplaced ⊢
      exact exact_calm h ho hplaced rfl rfl Or.inl
    · exact absurd hflag Bool.false_ne_true
    · rw [hs] at hplaced ⊢
      exact exact_erase hp h ho hout rfl hplaced

/-- `RemoveNotify` clears the bit of a watched event and leaves the list. -/
theorem exact_removeNotify_iff (hp : w.Placed) (h : w.Exact) (a : Nat) :
    (w.step (.removeNotify a)).Exact ↔
      w.Quiet a ∨ ∀ o, w.objs a = some o → o.event.fd < 0 ∨ w.poll.kernel o.event.fd = none := by
  have hplaced := placed_step hp (.removeNotify a)
  cases ho : w.objs a with
  | none =>
    rw [step, on_none ho]
    exact ⟨fun _ => Or.inl (quiet_none ho), fun _ => h⟩
  | some o =>
    rw [step, on_eq ho] at hplaced ⊢
    rcases o.event.removeNotify_cases w.poll with ⟨errno, hr, hgone⟩ | ⟨hr, hfd, hwatched⟩
    · rw [hr] at hplaced ⊢
      refine ⟨fun _ => Or.inr fun q hq => ?_, fun _ => exact_calm h ho hplaced rfl rfl Or.inl⟩
      obtain rfl := Option.some.inj hq
      exact hgone
    · rw [hr] at hplaced ⊢
      constructor
      · intro hex
        refine Or.inl ((quiet_iff h).mpr fun hmem => ?_)
        -- still in the list, and no writer any more
        obtain ⟨q, hq, hqout⟩ := (hex.pending a).mp hmem
        obtain rfl := Option.some.inj ((Function.update_self a _ w.objs).symm.trans hq)
        exact Bool.false_ne_true hqout
      · rintro (hquiet | hgone)
        · exact exact_calm h ho hplaced rfl (hquiet o ho).symm Or.inl
        · rcases hgone o rfl with hneg | hnone
          · omega
          · exact absurd hnone hwatched

theorem exact_close_iff (hp : w.Placed) (h : w.Exact) (a : Nat) : (w.step (.close a)).Exact ↔ w.Quiet a := by
  have hplaced := placed_step hp (.close a)
  cases ho : w.objs a with
  | none =>
    rw [step, on_none ho]
    exact ⟨fun _ => quiet_none ho, fun _ => h⟩
  | some o =>
    rw [step, on_eq ho] at hplaced ⊢
    have hlist : (o.event.close w.poll).2.2.writeEvents = w.poll.writeEvents := Event.removeNotify_writeEvents _ _
    constructor
    · intro hex
      rw [quiet_iff h]
      have hnot := hex.live a _ (Function.update_self _ _ _) rfl
      rwa [listed, hlist] at hnot
    · intro hquiet
      have hout := hquiet o ho
      refine exact_calm h ho hplaced hlist ?_ fun _ => Or.inr hout
      rw [hout, Event.close_eq]
      by_contra hc
      have hwas := (Event.removeNotify_out _ _ (by simpa using hc)).1
      rw [hout] at hwas
      exact Bool.false_ne_true hwas

theorem exact_destroy_iff (hp : w.Placed) (h : w.Exact) (a : Nat) : (w.step (.destroy a)).Exact ↔ w.Quiet a := by
  have hplaced := placed_step hp (.destroy a)
  cases ho : w.objs a with
  | none =>
    rw [step, ho]
    exact ⟨fun _ => quiet_none ho, fun _ => h⟩
  | some o =>
    rw [step, ho] at hplaced ⊢
    have hlist : (if o.event.fd ≠ -1 then (o.event.removeNotify w.poll).2.2 else w.poll).writeEvents =
        w.poll.writeEvents := by split <;> simp
    constructor
    · intro hex
      refine (quiet_iff h).mpr fun hmem => ?_
      rw [listed, ← hlist] at hmem
      obtain ⟨q, hq, -⟩ := (hex.pending a).mp hmem
      simp at hq
    · intro hquiet
      exact exact_quiet h ((quiet_iff h).mp hquiet) hplaced hlist fun q hq => absurd hq (by simp)

/-- The list is exact after a step if and only if the step is safe. -/
theorem safe_iff (hp : w.Placed) (h : w.Exact) (act : Act) : w.Safe act ↔ (w.step act).Exact := by
  cases act with
  | create a pos => exact iff_of_true trivial (exact_create hp h a pos)
  | opens a fd => exact iff_of_true trivial (exact_opens hp h a fd)
  | setReadable a flag => exact iff_of_true trivial (exact_setReadable hp h a flag)
  | setWritable a flag =>
    cases flag with
    | true => exact (exact_enable_iff hp h a).symm
    | false => exact iff_of_true trivial (exact_disable hp h a)
  | removeNotify a => exact (exact_removeNotify_iff hp h a).symm
  | close a => exact (exact_close_iff hp h a).symm
  | destroy a => exact (exact_destroy_iff hp h a).symm

/-! ## Runs -/

theorem exact_start (kernel : Kernel) : (start kernel).Placed ∧ (start kernel).Exact := by
  have hp : (start kernel).Placed := by
    refine ⟨?_, ?_, List.nodup_nil, ?_⟩
    · intro a o h; cases h
    · intro n hn; cases hn
    · intro a o h; cases h
  refine ⟨hp, exact_of hp List.nodup_nil ?_ ?_⟩
  · intro a
    simp [listed, start, Pending]
  · intro a o h; cases h

/-- The list is exact in every state of a run if and only if every step is safe. -/
theorem write_list_exact (kernel : Kernel) (acts : List Act) :
    Runs.Each step Safe (start kernel) acts ↔
      Runs.Each step (fun w act => (w.step act).Exact) (start kernel) acts := by
  have hplaced : ∀ (w : Reactor) act, w.Placed → (w.step act).Placed := fun _ act hp => placed_step hp act
  have hsafe : ∀ (w : Reactor) act, w.Placed → w.Exact → (w.Safe act ↔ (w.step act).Exact) :=
    fun _ act hp h => safe_iff hp h act
  obtain ⟨hp, h⟩ := exact_start kernel
  exact Runs.each_exact hplaced hsafe acts _ hp h

/-- A connection with a reply to write is closed: `events` is cleared, the list is not. -/
def closedWriter : List Act := [.create 0 0, .opens 0 5, .setReadable 0 true, .setWritable 0 true, .close 0]

theorem closed_writer_stays_listed :
    ¬ Runs.Each step (fun w act => (w.step act).Exact) (start fun _ => none) closedWriter := by
  rintro ⟨-, -, -, -, h, -⟩
  exact h.live 0 ⟨⟨0, 5, .zero, 0⟩, true⟩ rfl rfl (by decide)

end Reactor

end RedisProxy.Net
