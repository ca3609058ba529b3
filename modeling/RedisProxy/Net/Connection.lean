/-
  RedisProxy.Net.Connection — one side of a connection (connections.h, connections.cpp,
  the epoll bits of epoll.cpp, `Read`/`Write`/`Close` of netio.cpp).

  What the kernel answers is a parameter (`WriteResult`). `NET_FLAG_RST` is never
  passed and no write handler is ever set; neither is modelled.
-/

import RedisProxy.Wire.Buffer

namespace RedisProxy.Net

open Lib.Decimal Wire

structure Connection where
  connected : Bool
  /-- `EPOLLIN` in `events`. -/
  readable : Bool
  /-- `EPOLLOUT` in `events`. -/
  writable : Bool
  /-- `NET_FLAG_CLOSE` in `flag_`. -/
  closing : Bool
  sendBuffer : Bytes
  deriving DecidableEq, Repr

inductive WriteResult where
  | wrote (n : Nat)
  | again
  | fails (errno : Nat)
  deriving DecidableEq, Repr

/-- The bytes a write takes. -/
def WriteResult.taken : WriteResult → Nat
  | .wrote n => n
  | _ => 0

namespace Connection

/-- After `Accept` or `Connect`, and `OnReadEvent`. -/
def opened : Connection := ⟨true, true, false, false, []⟩

def setReadable (c : Connection) (flag : Bool) : Connection := { c with readable := flag }

def setWritable (c : Connection) (flag : Bool) : Connection := { c with writable := flag }

/-- `WriteToBuffer(b, flags)`, `close` the `NET_FLAG_CLOSE` in `flags`. -/
def writeToBuffer (c : Connection) (b : Bytes) (close : Bool) : Connection :=
  { c.setWritable true with sendBuffer := c.sendBuffer ++ b, closing := c.closing || close }

/-- `Event::Write` on the send buffer. -/
def write (c : Connection) : WriteResult → Error × Connection
  | .again => (.tryAgain, c)
  | .fails errno => (.sys errno, c.setWritable false)
  | .wrote n =>
    if n = 0 then (.tryAgain, c)
    else if n < c.sendBuffer.length then (.tryAgain, { c with sendBuffer := Buffer.offset c.sendBuffer n })
    else (.ok, c)

/-- `Close`, as far as the connection goes: no more events, not connected. -/
def close (c : Connection) : Connection := { c with connected := false, readable := false, writable := false }

/-- `Reconnect`: the new descriptor is watched for what `events` says. -/
def reconnect (c : Connection) : Connection := { c with connected := true }

def onWritable (c : Connection) (w : WriteResult) : Error × Connection :=
  if c.sendBuffer = [] then (.ok, c.setWritable false)
  else
    match c.write w with
    | (.ok, c) =>
      if c.closing then (.closed, { c with sendBuffer := [] }.close)
      else (.ok, { c with sendBuffer := [] }.setWritable false)
    | (.tryAgain, c) => if c.closing then (.closed, c.close) else (.ok, c)
    | (e, c) => (e, c)

/-- A write the kernel can make: no more than there is, a count that is an int. -/
def Possible (c : Connection) (w : WriteResult) : Prop := w.taken ≤ c.sendBuffer.length ∧ w.taken < 2 ^ 31

/-- A write event on a connection that is not to be closed drops what was taken. -/
theorem onWritable_keeps {c : Connection} {w : WriteResult} (hc : c.closing = false) (hw : c.Possible w) :
    (c.onWritable w).2.sendBuffer = c.sendBuffer.drop w.taken ∧ (c.onWritable w).2.connected = c.connected ∧
      (c.onWritable w).2.closing = false := by
  obtain ⟨hle, hlt⟩ := hw
  unfold onWritable
  split
  · rename_i h0
    exact ⟨by rw [setWritable, h0, List.drop_nil], rfl, hc⟩
  · cases w with
    | again => simp only [write, hc]; exact ⟨rfl, rfl, hc⟩
    | fails errno => exact ⟨rfl, rfl, hc⟩
    | wrote n =>
      have hle : n ≤ c.sendBuffer.length := hle
      have hlt : n < 2 ^ 31 := hlt
      by_cases h0 : n = 0
      · subst h0
        simp only [write, if_true, hc]
        exact ⟨rfl, rfl, hc⟩
      · by_cases hpart : n < c.sendBuffer.length
        · simp only [write, h0, if_false, hpart, if_true, hc, Buffer.offset, hlt]
          exact ⟨rfl, rfl, rfl⟩
        · simp only [write, h0, if_false, hpart, hc]
          exact ⟨(List.drop_eq_nil_of_le (Nat.le_of_not_lt hpart)).symm, rfl, rfl⟩

/-- A write event that does not close touches neither `connected_` nor `EPOLLIN`. -/
theorem onWritable_open {c : Connection} {w : WriteResult} (h : (c.onWritable w).1 ≠ .closed) :
    (c.onWritable w).2.connected = c.connected ∧ (c.onWritable w).2.readable = c.readable := by
  unfold onWritable at h ⊢
  by_cases h0 : c.sendBuffer = []
  · rw [if_pos h0]
    exact ⟨rfl, rfl⟩
  · rw [if_neg h0] at h ⊢
    cases w with
    | fails errno => exact ⟨rfl, rfl⟩
    | again =>
      by_cases hc : c.closing = true
      · simp [write, hc] at h
      · simp [write, hc]
    | wrote n =>
      by_cases hn : n = 0
      · by_cases hc : c.closing = true
        · simp [write, hn, hc] at h
        · simp [write, hn, hc]
      · by_cases hpart : n < c.sendBuffer.length
        · by_cases hc : c.closing = true
          · simp [write, hn, hpart, hc] at h
          · simp [write, hn, hpart, hc]
        · by_cases hc : c.closing = true
          · simp [write, hn, hpart, hc] at h
          · simp [write, hn, hpart, hc, setWritable]

end Connection

end RedisProxy.Net
