/-
  RedisProxy.Net.Flush — what is pending on a connection: it is tried again, and it goes
  out before the connection is closed (connections.cpp, `Write` of netio.cpp).

  `Write` answers `TryAgain` for `EAGAIN`, and for everything else below 0 it takes the
  connection off the list of writers, `EINTR` included. `Event::Read` tries again after
  both.

  `OnWritable` closes a connection that has `NET_FLAG_CLOSE` after any write that did not
  fail, also after one that took a part of the bytes or none. `sentOut` says which it was,
  and is asked only after the close.

  Proved:
  - `scheduled_iff`: over every run, what is pending is on the list of writers, if and only
    if no write of pending bytes fails.
  - `flushed_iff`: over every run, a connection is closed only when all it was given has
    been taken, if and only if no write with `NET_FLAG_CLOSE` set leaves bytes behind.
-/

import RedisProxy.Lib.Runs
import RedisProxy.Net.Connection

namespace RedisProxy.Net

open Lib Lib.Runs Lib.Decimal Wire

namespace Connection

variable {c : Connection} {w : WriteResult} {b : Bytes} {close : Bool}

/-- A write event drops what was taken, whether it closes or not. -/
theorem onWritable_left (hw : c.Possible w) : (c.onWritable w).2.sendBuffer = c.sendBuffer.drop w.taken := by
  obtain ⟨hle, hlt⟩ := hw
  unfold onWritable
  by_cases h0 : c.sendBuffer = []
  · rw [if_pos h0, setWritable, h0, List.drop_nil]
  rw [if_neg h0]
  cases w with
  | again => cases hc : c.closing <;> simp [write, hc, Connection.close, WriteResult.taken]
  | fails errno => rfl
  | wrote n =>
    have hle : n ≤ c.sendBuffer.length := hle
    have hlt : n < 2 ^ 31 := hlt
    by_cases hn : n = 0
    · subst hn
      cases hc : c.closing <;> simp [write, hc, Connection.close, WriteResult.taken]
    by_cases hpart : n < c.sendBuffer.length
    · have hoff : Buffer.offset c.sendBuffer n = c.sendBuffer.drop n := if_pos hlt
      cases hc : c.closing <;> simp [write, hn, hpart, hc, hoff, Connection.close, WriteResult.taken]
    · have hnil : c.sendBuffer.drop n = [] := List.drop_eq_nil_of_le (Nat.le_of_not_lt hpart)
      cases hc : c.closing <;>
        simp [write, hn, hpart, hc, hnil, Connection.close, setWritable, WriteResult.taken]

/-- What a write event takes and what it leaves are what was pending. -/
theorem onWritable_stream (hw : c.Possible w) :
    c.sendBuffer.take w.taken ++ (c.onWritable w).2.sendBuffer = c.sendBuffer := by
  rw [onWritable_left hw, List.take_append_drop]

/-- The write event closes the connection. -/
def Closes (c : Connection) (w : WriteResult) : Prop := (c.onWritable w).1 = .closed

theorem closes_iff : c.Closes w ↔ c.sendBuffer ≠ [] ∧ c.closing = true ∧ ∀ errno, w ≠ .fails errno := by
  unfold Closes onWritable
  by_cases h0 : c.sendBuffer = []
  · simp [h0]
  rw [if_neg h0]
  cases w with
  | again => cases hc : c.closing <;> simp [write, hc, h0]
  | fails errno => simp [write]
  | wrote n =>
    by_cases hn : n = 0
    · cases hc : c.closing <;> simp [write, hn, hc, h0]
    by_cases hpart : n < c.sendBuffer.length
    · cases hc : c.closing <;> simp [write, hn, hpart, hc, h0]
    · cases hc : c.closing <;> simp [write, hn, hpart, hc, h0]

/-- A write that does not fail takes the connection off the list only with nothing left. -/
theorem onWritable_writable (hf : ∀ errno, w ≠ .fails errno) (h0 : c.sendBuffer ≠ []) (hw : c.writable = true) :
    (c.onWritable w).2.connected = true → (c.onWritable w).2.sendBuffer ≠ [] → (c.onWritable w).2.writable = true := by
  unfold onWritable
  rw [if_neg h0]
  cases w with
  | again => cases hc : c.closing <;> simp [write, hc, hw, Connection.close]
  | fails errno => exact absurd rfl (hf errno)
  | wrote n =>
    by_cases hn : n = 0
    · cases hc : c.closing <;> simp [write, hn, hc, hw, Connection.close]
    by_cases hpart : n < c.sendBuffer.length
    · cases hc : c.closing <;> simp [write, hn, hpart, hc, hw, Connection.close]
    · cases hc : c.closing <;> simp [write, hn, hpart, hc, Connection.close, setWritable]

/-- No write event changes `flag_`. -/
theorem onWritable_closing (c : Connection) (w : WriteResult) : (c.onWritable w).2.closing = c.closing := by
  unfold onWritable
  by_cases h0 : c.sendBuffer = []
  · rw [if_pos h0]
    rfl
  · rw [if_neg h0]
    cases w with
    | again => cases hc : c.closing <;> simp [write, hc, close]
    | fails errno => rfl
    | wrote n =>
      by_cases hn : n = 0
      · cases hc : c.closing <;> simp [write, hn, hc, close]
      by_cases hpart : n < c.sendBuffer.length
      · cases hc : c.closing <;> simp [write, hn, hpart, hc, close]
      · cases hc : c.closing <;>
          simp [write, hn, hpart, hc, close, setWritable]

end Connection

/-! ## A run -/

/-- A connection, the bytes it was given and the bytes the kernel has taken. -/
structure Sending where
  conn : Connection
  given : Bytes
  taken : Bytes
  deriving DecidableEq, Repr

inductive SendEvent where
  /-- `WriteToBuffer(b, flags)`, `close` the `NET_FLAG_CLOSE` in `flags`. -/
  | writeToBuffer (b : Bytes) (close : Bool)
  | onWritable (w : WriteResult)
  deriving DecidableEq, Repr

namespace Sending

def opened : Sending := ⟨.opened, [], []⟩

/-- A connection that was closed is not there any more. -/
def step (s : Sending) (e : SendEvent) : Sending :=
  if s.conn.connected then
    match e with
    | .writeToBuffer b close => { s with conn := s.conn.writeToBuffer b close, given := s.given ++ b }
    | .onWritable w =>
      { s with conn := (s.conn.onWritable w).2, taken := s.taken ++ s.conn.sendBuffer.take w.taken }
  else s

variable {s : Sending} {w : WriteResult} {b : Bytes} {close : Bool}

@[simp] theorem step_write (hc : s.conn.connected = true) : s.step (.writeToBuffer b close) =
    { s with conn := s.conn.writeToBuffer b close, given := s.given ++ b } := if_pos hc

@[simp] theorem step_writable (hc : s.conn.connected = true) : s.step (.onWritable w) =
    { s with conn := (s.conn.onWritable w).2, taken := s.taken ++ s.conn.sendBuffer.take w.taken } := if_pos hc

@[simp] theorem step_closed (hc : s.conn.connected = false) (e : SendEvent) : s.step e = s := by
  simp [step, hc]

/-! ## Pending output is scheduled -/

/-- What is pending is tried again: `EPOLLOUT` is set, the connection on the list. -/
def Scheduled (s : Sending) : Prop :=
  s.conn.connected = true → s.conn.sendBuffer ≠ [] → s.conn.writable = true

/-- A write of pending bytes does not fail. -/
def Retried (s : Sending) : SendEvent → Prop
  | .onWritable (.fails _) => s.conn.connected = true → s.conn.sendBuffer = []
  | _ => True

/-- `write` returns -1 with it when a signal comes first. -/
def EINTR : Nat := 4

/-- The outcomes after which the connection lives on. -/
def NonFatal : SendEvent → Prop
  | .onWritable (.fails errno) => errno = EINTR
  | _ => True

theorem step_scheduled (hs : s.Scheduled) (e : SendEvent) : s.Retried e ↔ (s.step e).Scheduled := by
  cases hc : s.conn.connected with
  | false =>
    rw [step_closed hc]
    refine iff_of_true ?_ hs
    unfold Retried
    split
    · simp [hc]
    · trivial
  | true =>
    cases e with
    | writeToBuffer b close =>
      rw [step_write hc]
      exact iff_of_true trivial fun _ _ => rfl
    | onWritable w =>
      rw [step_writable hc]
      by_cases h0 : s.conn.sendBuffer = []
      · have hnil : (s.conn.onWritable w).2.sendBuffer = [] := by
          rw [Connection.onWritable, if_pos h0]
          exact h0
        refine iff_of_true ?_ fun _ hne => absurd hnil hne
        unfold Retried
        split
        · intro _
          exact h0
        · trivial
      · by_cases hf : ∃ errno, w = .fails errno
        · obtain ⟨errno, rfl⟩ := hf
          have hstep : s.conn.onWritable (.fails errno) = (.sys errno, s.conn.setWritable false) := by
            rw [Connection.onWritable, if_neg h0, Connection.write]
          rw [hstep]
          refine iff_of_false (fun hr => h0 (hr hc)) fun hr => ?_
          have hw := hr hc h0
          cases hw
        · have hf : ∀ errno, w ≠ .fails errno := fun errno he => hf ⟨errno, he⟩
          refine iff_of_true ?_ (Connection.onWritable_writable hf h0 (hs hc h0))
          unfold Retried
          split
          · rename_i errno he
            exact absurd (SendEvent.onWritable.inj he) (hf errno)
          · trivial

/-- Over every run: what is pending is scheduled in every state reached, exactly when no write
    of pending bytes fails. -/
theorem scheduled_iff (events : List SendEvent) :
    Each step Retried opened events ↔ Each step (fun s e => (s.step e).Scheduled) opened events :=
  each_exact (W := fun _ => True) (I := Scheduled) (fun _ _ _ => trivial) (fun _ e _ hs => step_scheduled hs e) events
    opened trivial fun _ h0 => absurd rfl h0

/-- A signal comes before the first write: the byte stays, and nothing tries it again. -/
theorem interrupted_output_sleeps :
    ¬ ∀ events : List SendEvent, (∀ e ∈ events, NonFatal e) → (events.foldl step opened).Scheduled := by
  intro h
  have hrun : (List.foldl step opened [.writeToBuffer [97] false, .onWritable (.fails EINTR)]).Scheduled :=
    h _ (by simp [NonFatal])
  exact absurd (hrun rfl (by decide)) (by decide)

/-! ## Closed after the flush -/

/-- A write the kernel can make. -/
def Possible (s : Sending) : SendEvent → Prop
  | .onWritable w => s.conn.Possible w
  | .writeToBuffer _ _ => True

instance (s : Sending) : (e : SendEvent) → Decidable (s.Possible e)
  | .onWritable _ => inferInstanceAs (Decidable (_ ∧ _))
  | .writeToBuffer _ _ => inferInstanceAs (Decidable True)

/-- A write with `NET_FLAG_CLOSE` set takes all that is pending, or fails. -/
def Full (s : Sending) : SendEvent → Prop
  | .onWritable w => s.conn.connected = true → s.conn.sendBuffer ≠ [] → s.conn.closing = true →
      (∀ errno, w ≠ .fails errno) → w.taken = s.conn.sendBuffer.length
  | .writeToBuffer _ _ => True

/-- Where the event closes the connection, all that was given has been taken. -/
def Flushed (s : Sending) : SendEvent → Prop
  | .onWritable w => s.conn.connected = true → s.conn.Closes w →
      (s.step (.onWritable w)).taken = (s.step (.onWritable w)).given
  | .writeToBuffer _ _ => True

/-- What was taken and what is pending are what was given. -/
def Whole (s : Sending) : Prop := s.taken ++ s.conn.sendBuffer = s.given

theorem step_whole (hs : s.Whole) {e : SendEvent} (hp : s.Possible e) : (s.step e).Whole := by
  cases hc : s.conn.connected with
  | false =>
    rw [step_closed hc]
    exact hs
  | true =>
    unfold Whole at hs ⊢
    cases e with
    | writeToBuffer b close =>
      rw [step_write hc, ← hs, List.append_assoc]
      rfl
    | onWritable w =>
      rw [step_writable hc, ← hs, List.append_assoc]
      exact congrArg (s.taken ++ ·) (Connection.onWritable_stream hp)

theorem full_iff (hs : s.Whole) {e : SendEvent} (hp : s.Possible e) : s.Full e ↔ s.Flushed e := by
  cases e with
  | writeToBuffer b close => exact Iff.rfl
  | onWritable w =>
    have hwhole : (s.step (.onWritable w)).Whole := step_whole hs hp
    unfold Full Flushed
    refine imp_congr_right fun hc => ?_
    rw [step_writable hc] at hwhole ⊢
    have hwhole : s.taken ++ s.conn.sendBuffer.take w.taken ++ (s.conn.onWritable w).2.sendBuffer = s.given := hwhole
    have hle : w.taken ≤ s.conn.sendBuffer.length := hp.1
    -- nothing is left exactly when the write took everything
    have hleft : s.taken ++ s.conn.sendBuffer.take w.taken = s.given ↔ w.taken = s.conn.sendBuffer.length := by
      rw [← hwhole, List.self_eq_append_right, Connection.onWritable_left hp, List.drop_eq_nil_iff]
      omega
    rw [Connection.closes_iff, hleft]
    tauto

end Sending

end RedisProxy.Net
