/-
  RedisProxy.Net.Epoll — `io::Event` and the epoll set (io.h, epoll.cpp, `Close` of
  netio.cpp).

  The two bits of `events` are not alike. `EPOLLIN` is the kernel's: `operateNotify` tells
  it of every change, and picks ADD where `events` was 0, DEL where it becomes 0, MOD
  elsewhere. `EPOLLOUT` never goes to the kernel by itself: it says that the event is in
  `writeEvents`.

  The kernel has a mask for each watched descriptor. ADD fails for one it has, MOD and DEL
  for one it has not (a closed descriptor is not watched).

  Proved: `registration_exact`, when the kernel watches `EPOLLIN` as `events` says. An
  enabling `SetReadable` needs the event to be a writer or not, as it was when reading was
  disabled.
-/

import RedisProxy.Lib.Runs
import RedisProxy.Net.Connection
import Mathlib.Logic.Function.Basic

namespace RedisProxy.Net

open Lib Wire

inductive Bit where
  | epollIn
  | epollOut
  deriving DecidableEq, Repr

structure Mask where
  epollIn : Bool
  epollOut : Bool
  deriving DecidableEq, Repr

namespace Mask

def zero : Mask := ⟨false, false⟩

def has (m : Mask) : Bit → Bool
  | .epollIn => m.epollIn
  | .epollOut => m.epollOut

/-- `|=` with a bit, `&=` with its complement. -/
def put (m : Mask) (flag : Bool) : Bit → Mask
  | .epollIn => { m with epollIn := flag }
  | .epollOut => { m with epollOut := flag }

end Mask

/-! ## The kernel's set -/

inductive Op where
  | add
  | mod
  | del
  deriving DecidableEq, Repr

abbrev Kernel := Int → Option Mask

def enoent : Nat := 2
def ebadf : Nat := 9
def eexist : Nat := 17

/-- `epoll_ctl`; an error is its `errno`. -/
def epollCtl (kernel : Kernel) (op : Op) (fd : Int) (m : Mask) : Except Nat Kernel :=
  if fd < 0 then .error ebadf
  else
    match op, kernel fd with
    | .add, none => .ok (Function.update kernel fd (some m))
    | .add, some _ => .error eexist
    | .mod, some _ => .ok (Function.update kernel fd (some m))
    | .del, some _ => .ok (Function.update kernel fd none)
    | _, none => .error enoent

/-- A node of `writeEvents`: its place and the event it points to. -/
structure Node where
  pos : Nat
  evt : Nat
  deriving DecidableEq, Repr

/-- What the events share: the epoll set and `writeEvents`. -/
structure Poll where
  kernel : Kernel
  writeEvents : List Node
  /-- The next node is allocated here. -/
  fresh : Nat

structure Event where
  /-- Its address. -/
  this : Nat
  /-- `-1` before `Connect` or `Accept`. -/
  fd : Int
  events : Mask
  writeListPos : Nat
  deriving DecidableEq, Repr

namespace Poll

/-- `writeEvents.insert( writeEvents.end(), evt )`. -/
def insert (p : Poll) (evt : Nat) : Poll :=
  { p with writeEvents := p.writeEvents ++ [⟨p.fresh, evt⟩], fresh := p.fresh + 1 }

def erase (p : Poll) (pos : Nat) : Poll :=
  { p with writeEvents := p.writeEvents.filter fun n => n.pos ≠ pos }

/-- `close(fd)`: the kernel stops watching. -/
def closeFd (p : Poll) (fd : Int) : Poll := { p with kernel := Function.update p.kernel fd none }

/-- `epoll_ctl` on the set the events share. -/
def ctl (p : Poll) (op : Op) (fd : Int) (m : Mask) : Error × Poll :=
  match epollCtl p.kernel op fd m with
  | .ok kernel => (.ok, { p with kernel := kernel })
  | .error errno => (.sys errno, p)

@[simp] theorem insert_kernel (p : Poll) (evt : Nat) : (p.insert evt).kernel = p.kernel := rfl
@[simp] theorem erase_kernel (p : Poll) (pos : Nat) : (p.erase pos).kernel = p.kernel := rfl
@[simp] theorem closeFd_writeEvents (p : Poll) (fd : Int) : (p.closeFd fd).writeEvents = p.writeEvents := rfl
@[simp] theorem closeFd_fresh (p : Poll) (fd : Int) : (p.closeFd fd).fresh = p.fresh := rfl

end Poll

namespace Event

/-- `Event( ctx )`; `writeListPos` is not set. -/
def create (this : Nat) (writeListPos : Nat) : Event := ⟨this, -1, .zero, writeListPos⟩

def attach (e : Event) (p : Poll) : Error × Poll :=
  if e.fd = -1 then (.initFailed, p)
  else if e.events = .zero then (.ok, p)
  else p.ctl .add e.fd e.events

def removeNotify (e : Event) (p : Poll) : Error × Event × Poll :=
  match p.ctl .del e.fd .zero with
  | (.ok, p) => (.ok, { e with events := .zero }, p)
  | (err, p) => (err, e, p)

/-- Never fails. -/
def setWritable (e : Event) (p : Poll) (flag : Bool) : Event × Poll :=
  if flag then
    if e.events.has .epollOut then (e, p)
    else ({ e with events := e.events.put true .epollOut, writeListPos := p.fresh }, p.insert e.this)
  else if e.events.has .epollOut then ({ e with events := e.events.put false .epollOut }, p.erase e.writeListPos)
  else (e, p)

/-- The `op` of `operateNotify`, from `events` before and after. -/
def notifyOp (before after : Mask) : Op :=
  if after = .zero then .del else if before = .zero then .add else .mod

def operateNotify (e : Event) (p : Poll) (newEvents : Bit) (flag : Bool) : Error × Event × Poll :=
  if e.events.has newEvents = flag then (.ok, e, p)
  else
    let after := e.events.put flag newEvents
    -- without a descriptor it takes effect when attached
    if e.fd = -1 then (.ok, { e with events := after }, p)
    else
      let (err, p) := p.ctl (notifyOp e.events after) e.fd after
      (err, { e with events := after }, p)

def setReadable (e : Event) (p : Poll) (flag : Bool) : Error × Event × Poll := e.operateNotify p .epollIn flag

/-- `Close()` up to `OnClosed()`. -/
def close (e : Event) (p : Poll) : Error × Event × Poll :=
  let (err, e, p) := e.removeNotify p
  (err, e, p.closeFd e.fd)

/-! ## The bits of `events` -/

/-- The two bits are the ones `Connection` keeps. -/
def Shows (e : Event) (c : Connection) : Prop :=
  e.events.epollIn = c.readable ∧ e.events.epollOut = c.writable

variable {e : Event} {p : Poll} {c : Connection}

theorem operateNotify_events (newEvents : Bit) (flag : Bool) :
    (e.operateNotify p newEvents flag).2.1.events = e.events.put flag newEvents := by
  unfold operateNotify
  split
  · rename_i h
    cases newEvents <;> subst h <;> rfl
  · dsimp only
    split <;> rfl

theorem setReadable_shows (h : e.Shows c) (flag : Bool) :
    (e.setReadable p flag).2.1.Shows (c.setReadable flag) := by
  unfold Shows setReadable
  rw [operateNotify_events]
  exact ⟨rfl, h.2⟩

theorem setWritable_events (flag : Bool) :
    (e.setWritable p flag).1.events = e.events.put flag .epollOut := by
  obtain ⟨this, fd, ⟨i, o⟩, pos⟩ := e
  cases flag <;> cases o <;> rfl

theorem setWritable_shows (h : e.Shows c) (flag : Bool) :
    (e.setWritable p flag).1.Shows (c.setWritable flag) := by
  unfold Shows
  rw [setWritable_events]
  exact ⟨h.1, rfl⟩

@[simp] theorem setWritable_kernel (flag : Bool) : (e.setWritable p flag).2.kernel = p.kernel := by
  unfold setWritable
  split <;> split <;> rfl

@[simp] theorem setWritable_fd (flag : Bool) : (e.setWritable p flag).1.fd = e.fd := by
  unfold setWritable
  split <;> split <;> rfl

@[simp] theorem setReadable_fd (flag : Bool) : (e.setReadable p flag).2.1.fd = e.fd := by
  unfold setReadable operateNotify
  split
  · rfl
  · dsimp only
    split <;> rfl

/-! ## Registration -/

inductive Call where
  | setReadable (flag : Bool)
  | setWritable (flag : Bool)
  deriving DecidableEq, Repr

def call (s : Event × Poll) : Call → Error × Event × Poll
  | .setReadable flag => s.1.setReadable s.2 flag
  | .setWritable flag => (.ok, s.1.setWritable s.2 flag)

def callStep (s : Event × Poll) (c : Call) : Event × Poll := (call s c).2

/-- The kernel watches `EPOLLIN` exactly when `events` has it. -/
def Agrees (e : Event) (p : Poll) : Prop := (p.kernel e.fd).any (·.epollIn) = e.events.epollIn

/-- The call's `epoll_ctl`, if it makes one, succeeds, and leaves the kernel as `events` says. -/
def Registers (s : Event × Poll) (c : Call) : Prop :=
  (call s c).1 = .ok ∧ Agrees (call s c).2.1 (call s c).2.2

/-- Every `SetReadable( true )` that finds reading disabled finds the event a writer or not,
    as it was when reading was disabled (`wasWriting`). -/
def Matched : (reading writing wasWriting : Bool) → List Call → Prop
  | _, _, _, [] => True
  | r, _, v, .setWritable flag :: calls => Matched r flag v calls
  | r, w, v, .setReadable true :: calls => (r = false → w = v) ∧ Matched true w v calls
  | r, w, v, .setReadable false :: calls => Matched false w (if r then w else v) calls

/-- The descriptor is watched, or was left watched when reading was disabled. -/
def Stands (e : Event) (p : Poll) (wasWriting : Bool) : Prop :=
  if e.events.epollIn then ∃ m, p.kernel e.fd = some m ∧ m.epollIn = true
  else if wasWriting then ∃ m, p.kernel e.fd = some m ∧ m.epollIn = false
  else p.kernel e.fd = none

variable {v : Bool}

theorem stands_agrees (h : Stands e p v) : Agrees e p := by
  unfold Stands at h
  unfold Agrees
  by_cases hin : e.events.epollIn = true
  · rw [if_pos hin] at h
    obtain ⟨m, hm, hin'⟩ := h
    simp [hm, hin, hin']
  · rw [if_neg hin] at h
    rw [Bool.not_eq_true] at hin
    by_cases hv : v = true
    · rw [if_pos hv] at h
      obtain ⟨m, hm, hout⟩ := h
      simp [hm, hin, hout]
    · rw [if_neg hv] at h
      simp [h, hin]

theorem ctl_add (hfd : 0 ≤ e.fd) (h : p.kernel e.fd = none) (m : Mask) :
    p.ctl .add e.fd m = (.ok, { p with kernel := Function.update p.kernel e.fd (some m) }) := by
  simp [Poll.ctl, epollCtl, Int.not_lt.mpr hfd, h]

theorem ctl_mod (hfd : 0 ≤ e.fd) {old : Mask} (h : p.kernel e.fd = some old) (m : Mask) :
    p.ctl .mod e.fd m = (.ok, { p with kernel := Function.update p.kernel e.fd (some m) }) := by
  simp [Poll.ctl, epollCtl, Int.not_lt.mpr hfd, h]

theorem ctl_del (hfd : 0 ≤ e.fd) {old : Mask} (h : p.kernel e.fd = some old) (m : Mask) :
    p.ctl .del e.fd m = (.ok, { p with kernel := Function.update p.kernel e.fd none }) := by
  simp [Poll.ctl, epollCtl, Int.not_lt.mpr hfd, h]

theorem ctl_add_present (hfd : 0 ≤ e.fd) {old : Mask} (h : p.kernel e.fd = some old) (m : Mask) :
    p.ctl .add e.fd m = (.sys eexist, p) := by
  simp [Poll.ctl, epollCtl, Int.not_lt.mpr hfd, h]

theorem ctl_mod_absent (hfd : 0 ≤ e.fd) (h : p.kernel e.fd = none) (m : Mask) :
    p.ctl .mod e.fd m = (.sys enoent, p) := by
  simp [Poll.ctl, epollCtl, Int.not_lt.mpr hfd, h]

theorem attach_stands (hfd : 0 ≤ e.fd) (h : p.kernel e.fd = none) :
    (e.attach p).1 = .ok ∧ Stands e (e.attach p).2 e.events.epollOut := by
  have hne : e.fd ≠ -1 := by omega
  unfold attach
  rw [if_neg hne]
  by_cases h0 : e.events = .zero
  · rw [if_pos h0]
    refine ⟨rfl, ?_⟩
    simp [Stands, h0, Mask.zero, h]
  · rw [if_neg h0, ctl_add hfd h]
    refine ⟨rfl, ?_⟩
    obtain ⟨this, fd, ⟨i, o⟩, pos⟩ := e
    cases i <;> cases o
    · exact absurd rfl h0
    all_goals simp [Stands]

/-- Disabling: the descriptor stays watched where the event is a writer. -/
theorem disable_stands (hfd : 0 ≤ e.fd) (h : Stands e p v) (hin : e.events.epollIn = true) :
    (e.setReadable p false).1 = .ok ∧
      Stands (e.setReadable p false).2.1 (e.setReadable p false).2.2 e.events.epollOut := by
  have hne : e.fd ≠ -1 := by omega
  unfold Stands at h
  rw [if_pos hin] at h
  obtain ⟨m, hm, -⟩ := h
  have hhas : e.events.has .epollIn ≠ false := by
    rw [Mask.has, hin]
    decide
  unfold setReadable operateNotify
  rw [if_neg hhas]
  dsimp only
  rw [if_neg hne]
  obtain ⟨this, fd, ⟨i, o⟩, pos⟩ := e
  cases o with
  | true =>
    have hop : notifyOp ⟨i, true⟩ (Mask.put ⟨i, true⟩ false .epollIn) = .mod := by cases i <;> rfl
    rw [hop, ctl_mod hfd hm]
    simp [Stands, Mask.put]
  | false =>
    have hop : notifyOp ⟨i, false⟩ (Mask.put ⟨i, false⟩ false .epollIn) = .del := by cases i <;> rfl
    rw [hop, ctl_del hfd hm]
    simp [Stands, Mask.put]

/-- Enabling: ADD where the event is no writer, MOD where it is one, and the kernel needs the
    one or the other. -/
theorem enable_stands (hfd : 0 ≤ e.fd) (h : Stands e p v) (hin : e.events.epollIn = false) :
    ((e.setReadable p true).1 = .ok ↔ e.events.epollOut = v) ∧
      (e.events.epollOut = v → Stands (e.setReadable p true).2.1 (e.setReadable p true).2.2 v) := by
  have hne : e.fd ≠ -1 := by omega
  unfold Stands at h
  rw [hin, if_neg Bool.false_ne_true] at h
  have hhas : e.events.has .epollIn ≠ true := by
    rw [Mask.has, hin]
    decide
  unfold setReadable operateNotify
  rw [if_neg hhas]
  dsimp only
  rw [if_neg hne]
  obtain ⟨this, fd, ⟨i, o⟩, pos⟩ := e
  obtain rfl : i = false := hin
  cases o with
  | true =>
    have hop : notifyOp ⟨false, true⟩ (Mask.put ⟨false, true⟩ true .epollIn) = .mod := rfl
    rw [hop]
    cases v with
    | true =>
      obtain ⟨m, hm, -⟩ := h
      rw [ctl_mod hfd hm]
      simp [Stands, Mask.put]
    | false =>
      rw [ctl_mod_absent hfd h]
      simp
  | false =>
    have hop : notifyOp ⟨false, false⟩ (Mask.put ⟨false, false⟩ true .epollIn) = .add := rfl
    rw [hop]
    cases v with
    | true =>
      obtain ⟨m, hm, -⟩ := h
      rw [ctl_add_present hfd hm]
      simp
    | false =>
      rw [ctl_add hfd h]
      simp [Stands, Mask.put]

theorem writable_stands (h : Stands e p v) (flag : Bool) :
    Stands (e.setWritable p flag).1 (e.setWritable p flag).2 v := by
  unfold Stands at h ⊢
  rw [setWritable_events, setWritable_kernel, setWritable_fd]
  exact h

theorem setReadable_same {flag : Bool} (h : e.events.epollIn = flag) : e.setReadable p flag = (.ok, e, p) := by
  unfold setReadable operateNotify
  exact if_pos h

/-- From an event that stands, every call registers if and only if the enabling ones match. -/
theorem registers_iff (calls : List Call) :
    ∀ (e : Event) (p : Poll) (v : Bool), 0 ≤ e.fd → Stands e p v →
      (Runs.Each callStep Registers (e, p) calls ↔ Matched e.events.epollIn e.events.epollOut v calls) := by
  induction calls with
  | nil =>
    intro e p v _ _
    simp [Runs.Each, Matched]
  | cons c calls ih =>
    intro e p v hfd h
    cases c with
    | setWritable flag =>
      have hrest := ih (e.setWritable p flag).1 (e.setWritable p flag).2 v
        (by rw [setWritable_fd]; exact hfd) (writable_stands h flag)
      have hreg : Registers (e, p) (.setWritable flag) := ⟨rfl, stands_agrees (writable_stands h flag)⟩
      rw [setWritable_events] at hrest
      exact ⟨fun he => hrest.mp he.2, fun hm => ⟨hreg, hrest.mpr hm⟩⟩
    | setReadable flag =>
      by_cases hsame : e.events.epollIn = flag
      · -- nothing to do
        have hstep : callStep (e, p) (.setReadable flag) = (e, p) := by
          rw [callStep, call, setReadable_same hsame]
        have hreg : Registers (e, p) (.setReadable flag) := by
          unfold Registers
          rw [call, setReadable_same hsame]
          exact ⟨rfl, stands_agrees h⟩
        have hrest := ih e p v hfd h
        rw [Runs.Each, hstep]
        subst hsame
        cases hin : e.events.epollIn with
        | true =>
          rw [hin] at hrest hreg
          simp [Matched, hreg, hrest]
        | false =>
          rw [hin] at hrest hreg
          simp [Matched, hreg, hrest]
      · have hfd' : 0 ≤ (e.setReadable p flag).2.1.fd := by rw [setReadable_fd]; exact hfd
        have hev : (e.setReadable p flag).2.1.events = e.events.put flag .epollIn := operateNotify_events _ _
        cases flag with
        | false =>
          have hin : e.events.epollIn = true := by simpa using hsame
          obtain ⟨hok, hstands⟩ := disable_stands hfd h hin
          have hrest := ih _ _ _ hfd' hstands
          rw [hev] at hrest
          have hreg : Registers (e, p) (.setReadable false) := ⟨hok, stands_agrees hstands⟩
          rw [hin]
          exact ⟨fun he => hrest.mp he.2, fun hm => ⟨hreg, hrest.mpr hm⟩⟩
        | true =>
          have hin : e.events.epollIn = false := by simpa using hsame
          obtain ⟨hok, hstands⟩ := enable_stands hfd h hin
          rw [hin]
          constructor
          · rintro ⟨⟨hcall, -⟩, he⟩
            have hw := hok.mp hcall
            have hrest := ih _ _ _ hfd' (hstands hw)
            rw [hev] at hrest
            exact ⟨fun _ => hw, hrest.mp he⟩
          · rintro ⟨hw, hm⟩
            have hrest := ih _ _ _ hfd' (hstands (hw rfl))
            rw [hev] at hrest
            exact ⟨⟨hok.mpr (hw rfl), stands_agrees (hstands (hw rfl))⟩, hrest.mpr hm⟩

/-- Attached and then called: every `epoll_ctl` succeeds and the kernel always watches
    `EPOLLIN` as `events` says, if and only if every enabling call finds the event a writer,
    or not, as it was when reading was disabled (or when it was attached). -/
theorem registration_exact (e : Event) (p : Poll) (hfd : 0 ≤ e.fd) (h : p.kernel e.fd = none) (calls : List Call) :
    ((e.attach p).1 = .ok ∧ Agrees e (e.attach p).2 ∧ Runs.Each callStep Registers (e, (e.attach p).2) calls) ↔
      Matched e.events.epollIn e.events.epollOut e.events.epollOut calls := by
  obtain ⟨hok, hstands⟩ := attach_stands hfd h
  have hrest := registers_iff calls e (e.attach p).2 _ hfd hstands
  exact ⟨fun he => hrest.mp he.2.2, fun hm => ⟨hok, stands_agrees hstands, hrest.mpr hm⟩⟩

/-- `Session::OnServerWrite` on a session that was disabled with nothing to write. -/
def disabledThenAnswered : List Call := [.setReadable false, .setWritable true, .setReadable true]

def nothing : Poll := ⟨fun _ => none, [], 0⟩

/-- The reply makes the event a writer, so reading is enabled with MOD on a descriptor that
    is not watched: the connection is not read again. -/
theorem reply_leaves_the_session_deaf :
    ¬ ((Event.attach ⟨0, 5, ⟨true, false⟩, 0⟩ nothing).1 = .ok ∧
      Agrees ⟨0, 5, ⟨true, false⟩, 0⟩ (Event.attach ⟨0, 5, ⟨true, false⟩, 0⟩ nothing).2 ∧
      Runs.Each callStep Registers (⟨0, 5, ⟨true, false⟩, 0⟩, (Event.attach ⟨0, 5, ⟨true, false⟩, 0⟩ nothing).2)
        disabledThenAnswered) := by
  rintro ⟨-, -, -, -, ⟨hok, -⟩, -⟩
  exact absurd hok (by decide)

theorem registration_exact_unanswered :
    Matched true false false [.setReadable false, .setReadable true] :=
  (registration_exact ⟨0, 5, ⟨true, false⟩, 0⟩ nothing (by decide) rfl [.setReadable false, .setReadable true]).mp
    ⟨rfl, rfl, ⟨rfl, rfl⟩, ⟨rfl, rfl⟩, trivial⟩

end Event

end RedisProxy.Net
