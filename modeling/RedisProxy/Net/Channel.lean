/-
  RedisProxy.Net.Channel — a connection, and what the kernel has registered for it.

  `Net.Connection` has the two bits of `events`. What is watched for is the kernel's mask
  of the descriptor, which only an `epoll_ctl` changes: `SetReadable` makes one where the
  bit changes, with the operation that `operateNotify` picks from `events`, and where that
  fails the bit has changed and the mask has not.

  Proved: `setReadable_event`, this is what `Net.Epoll` does at the connection's descriptor;
  `disabled_watched`, reading is disabled with the descriptor kept for a writer only; and
  `answered_watched`, what is written to and enabled is watched again if it was kept.
-/

import RedisProxy.Net.Epoll

namespace RedisProxy.Net

open Lib.Decimal Wire

/-- `events`. -/
def Connection.events (c : Connection) : Mask := ⟨c.readable, c.writable⟩

/-- What `epoll_ctl` makes of one descriptor's mask; a call that fails changes nothing. -/
def notified (watched : Option Mask) (op : Op) (m : Mask) : Option Mask :=
  match op, watched with
  | .add, none => some m
  | .mod, some _ => some m
  | .del, some _ => none
  | _, watched => watched

structure Channel where
  conn : Connection
  /-- The kernel's mask of its descriptor. -/
  watched : Option Mask
  deriving DecidableEq, Repr

namespace Channel

/-- Accepted, and attached with `EPOLLIN`. -/
def opened : Channel := ⟨.opened, some Connection.opened.events⟩

def setReadable (x : Channel) (flag : Bool) : Channel :=
  if x.conn.readable = flag then x
  else
    let c := x.conn.setReadable flag
    ⟨c, notified x.watched (Event.notifyOp x.conn.events c.events) c.events⟩

/-- `WriteToBuffer( b )`: `SetWritable` makes no `epoll_ctl`. -/
def writeToBuffer (x : Channel) (b : Bytes) : Channel := { x with conn := x.conn.writeToBuffer b false }

/-- A handler has made `c` of the connection, its call of `SetReadable` the last. -/
def after (x : Channel) (c : Connection) : Channel :=
  setReadable { x with conn := { c with readable := x.conn.readable } } c.readable

/-- The kernel does not report what there is to read. -/
def Deaf (x : Channel) : Prop := x.watched.any (·.epollIn) = false

variable {x : Channel} {c : Connection} {e : Event} {p : Poll}

/-! ## The connection's event -/

theorem ctl_notified (hfd : 0 ≤ e.fd) (op : Op) (m : Mask) :
    (p.ctl op e.fd m).2.kernel e.fd = notified (p.kernel e.fd) op m := by
  unfold Poll.ctl epollCtl
  rw [if_neg (Int.not_lt.mpr hfd)]
  cases hk : p.kernel e.fd with
  | none => cases op <;> simp [notified, hk]
  | some old => cases op <;> simp [notified, hk]

theorem shows_events (h : e.Shows x.conn) : e.events = x.conn.events := by
  obtain ⟨hin, hout⟩ := h
  unfold Connection.events
  rw [← hin, ← hout]

/-- `SetReadable` of the event, at its descriptor. -/
theorem setReadable_event (hfd : 0 ≤ e.fd) (h : e.Shows x.conn) (hw : p.kernel e.fd = x.watched) (flag : Bool) :
    (e.setReadable p flag).2.1.Shows (x.setReadable flag).conn ∧
      (e.setReadable p flag).2.2.kernel e.fd = (x.setReadable flag).watched := by
  have hne : e.fd ≠ -1 := by omega
  unfold Event.setReadable Event.operateNotify setReadable
  rw [show e.events.has .epollIn = x.conn.readable from h.1]
  by_cases hflag : x.conn.readable = flag
  · rw [if_pos hflag, if_pos hflag]
    exact ⟨h, hw⟩
  · rw [if_neg hflag, if_neg hflag]
    dsimp only
    rw [if_neg hne, shows_events h, ← hw]
    exact ⟨⟨rfl, rfl⟩, ctl_notified hfd _ _⟩

/-! ## What is watched -/

@[simp] theorem setReadable_conn (flag : Bool) : (x.setReadable flag).conn = x.conn.setReadable flag := by
  unfold setReadable
  split
  · rename_i h
    subst h
    rfl
  · rfl

@[simp] theorem after_conn : (x.after c).conn = c := setReadable_conn _

theorem after_same (h : c.readable = x.conn.readable) : (x.after c).watched = x.watched := by
  unfold after setReadable
  rw [if_pos h.symm]

/-- Reading is disabled with MOD where the event is a writer, with DEL elsewhere. -/
theorem disabled_watched (h : x.conn.readable = true) :
    (x.setReadable false).watched = x.watched.bind fun _ => if x.conn.writable then some ⟨false, true⟩ else none := by
  obtain ⟨⟨connected, readable, writable, closing, sendBuffer⟩, watched⟩ := x
  obtain rfl : readable = true := h
  cases writable <;> cases watched <;> rfl

theorem disabled_deaf (h : x.conn.readable = true) : (x.setReadable false).Deaf := by
  unfold Deaf
  rw [disabled_watched h]
  cases x.watched with
  | none => rfl
  | some m => cases x.conn.writable <;> rfl

theorem after_deaf (hx : x.conn.readable = false → x.Deaf) (h : c.readable = false) : (x.after c).Deaf := by
  by_cases hr : x.conn.readable = true
  · unfold after
    rw [h]
    exact disabled_deaf hr
  · have hr : x.conn.readable = false := Bool.eq_false_iff.mpr hr
    unfold Deaf
    rw [after_same (h.trans hr.symm)]
    exact hx hr

/-- A reply makes the event a writer, so what was disabled is enabled with MOD. -/
theorem answered_watched (h : x.conn.readable = false) (b : Bytes) :
    ((x.writeToBuffer b).setReadable true).watched = x.watched.map fun _ => ⟨true, true⟩ := by
  obtain ⟨⟨connected, readable, writable, closing, sendBuffer⟩, watched⟩ := x
  obtain rfl : readable = false := h
  cases watched <;> rfl

theorem answered_same (h : x.conn.readable = true) (b : Bytes) :
    ((x.writeToBuffer b).setReadable true).watched = x.watched := by
  unfold setReadable
  rw [if_pos (show (x.writeToBuffer b).conn.readable = true from h)]
  rfl

/-- The reply reaches a reader again. -/
theorem answered_deaf (h : x.conn.readable = false) (b : Bytes) :
    ((x.writeToBuffer b).setReadable true).Deaf ↔ x.watched = none := by
  unfold Deaf
  rw [answered_watched h]
  cases x.watched <;> simp

end Channel

end RedisProxy.Net
