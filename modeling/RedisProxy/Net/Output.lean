/-
  RedisProxy.Net.Output — the send buffer of a connection over the heap (connections.cpp,
  `Write` of netio.cpp).

  `Net.Connection` has the send buffer's contents; here it is the buffer: appended to,
  advanced by a partial write, moved by `AppendCapacity` and cleared by a full one. The
  other buffers of the heap are `rest`. What the kernel accepts is said by the outcomes of
  the run (`taken`), not by the connection.

  Proved: each call does to the contents what `Net.Connection` says (`view_writeToBuffer`,
  `view_onWritable`), so that over every run the bytes taken and the contents left are the
  bytes written, in order (`stream_kept`).
-/

import RedisProxy.Lib.Simulation
import RedisProxy.Mem.Contents
import RedisProxy.Net.Connection

namespace RedisProxy.Net

open Lib Lib.Runs Lib.Simulation Lib.Decimal Wire Mem

structure Output where
  heap : Heap
  connected : Bool
  readable : Bool
  writable : Bool
  closing : Bool
  sendBuffer : Mem.Buffer

namespace Output

def opened (h : Heap) : Output := ⟨h, true, true, false, false, .null⟩

/-- `WriteToBuffer(b, flags)`: `b` is what the buffer holds. -/
def writeToBuffer (o : Output) (b : Bytes) (close : Bool) : Error × Output :=
  match o.sendBuffer.appendBytes o.heap b with
  | (.ok, h, s) =>
    (.ok, { o with heap := h, writable := true, closing := o.closing || close, sendBuffer := s })
  | (e, h, s) => (e, { o with heap := h, writable := true, sendBuffer := s })

/-- `Event::Write` on the send buffer. -/
def write (o : Output) : WriteResult → Error × Output
  | .again => (.tryAgain, o)
  | .fails errno => (.sys errno, { o with writable := false })
  | .wrote n =>
    if n = 0 then (.tryAgain, o)
    else if n < o.sendBuffer.used then (.tryAgain, { o with sendBuffer := o.sendBuffer.offsetBy n 0 })
    else (.ok, o)

def clear (o : Output) : Output :=
  { o with heap := (o.sendBuffer.clear o.heap).1, sendBuffer := (o.sendBuffer.clear o.heap).2 }

/-- `Close`, as far as the connection goes. -/
def close (o : Output) : Output := { o with connected := false, readable := false, writable := false }

def onWritable (o : Output) (w : WriteResult) : Error × Output :=
  if o.sendBuffer.used = 0 then (.ok, { o with writable := false })
  else
    match o.write w with
    | (.ok, o) =>
      if o.closing then (.closed, o.clear.close) else (.ok, { o.clear with writable := false })
    | (.tryAgain, o) => if o.closing then (.closed, o.close) else (.ok, o)
    | (e, o) => (e, o)

/-- What `Net.Connection` has of it. -/
def view (o : Output) : Connection :=
  ⟨o.connected, o.readable, o.writable, o.closing, o.sendBuffer.contents o.heap⟩

/-! ## A run -/

inductive OutEvent where
  | writeToBuffer (b : Bytes)
  | onWritable (w : WriteResult)
  deriving DecidableEq, Repr

def step (o : Output) : OutEvent → Output
  | .writeToBuffer b => (o.writeToBuffer b false).2
  | .onWritable w => (o.onWritable w).2

/-- The bytes an event passes to `WriteToBuffer`. -/
def OutEvent.bytes : OutEvent → Bytes
  | .writeToBuffer b => b
  | .onWritable _ => []

/-- The bytes that `write` accepts at an event. -/
def taken (o : Output) : OutEvent → Bytes
  | .writeToBuffer _ => []
  | .onWritable w => (o.sendBuffer.contents o.heap).take w.taken

/-- Fewer than 2^31 bytes are pending, and a write takes no more than there are. -/
def Fits (o : Output) : OutEvent → Prop
  | .writeToBuffer b => o.sendBuffer.used + b.length < 2 ^ 31
  | .onWritable w => w.taken ≤ o.sendBuffer.used

instance (o : Output) : (e : OutEvent) → Decidable (o.Fits e)
  | .writeToBuffer b => inferInstanceAs (Decidable (o.sendBuffer.used + b.length < 2 ^ 31))
  | .onWritable w => inferInstanceAs (Decidable (w.taken ≤ o.sendBuffer.used))

/-- Between events: the send buffer has a block of its own, or none. -/
structure Kept (rest : List Mem.Buffer) (o : Output) : Prop where
  sound : Sound o.heap (o.sendBuffer :: rest)
  own : Own o.sendBuffer rest
  pending : o.sendBuffer.used < 2 ^ 31
  closing : o.closing = false

variable {rest : List Mem.Buffer} {o : Output} {b : Bytes} {w : WriteResult}

theorem Kept.length (hk : Kept rest o) : o.view.sendBuffer.length = o.sendBuffer.used := length_contents hk.sound

theorem kept_opened {h : Heap} (hs : Sound h rest) : Kept rest (opened h) :=
  ⟨sound_null hs, fun _ ha => (nomatch ha), (by decide : (0 : Nat) < 2 ^ 31), rfl⟩

theorem view_writeToBuffer (hk : Kept rest o) (hf : o.sendBuffer.used + b.length < 2 ^ 31) :
    (o.writeToBuffer b false).1 = .ok ∧ (o.writeToBuffer b false).2.view = o.view.writeToBuffer b false ∧
      Kept rest (o.writeToBuffer b false).2 := by
  have hn : o.sendBuffer.Affords b.length := by
    unfold Mem.Buffer.Affords
    omega
  obtain ⟨h', s, he, hs, hown, _, hc, _⟩ := sound_appendBytes hk.sound hk.own hn
  have hlen := length_contents hs
  rw [hc, List.length_append, length_contents hk.sound] at hlen
  unfold writeToBuffer
  rw [he]
  refine ⟨rfl, ?_, hs, hown, ?_, ?_⟩
  · unfold view Connection.writeToBuffer Connection.setWritable
    rw [hc]
  · show s.used < 2 ^ 31
    omega
  · show (o.closing || false) = false
    rw [hk.closing]
    rfl

/-- A partial write advances the buffer. -/
theorem kept_offset (hk : Kept rest o) {n : Nat} (hn : n ≤ o.sendBuffer.used) :
    Kept rest { o with sendBuffer := o.sendBuffer.offsetBy n 0 } ∧
      (o.sendBuffer.offsetBy n 0).contents o.heap = Wire.Buffer.offset (o.sendBuffer.contents o.heap) n := by
  have hshape := hk.sound.shaped o.sendBuffer List.mem_cons_self
  have hpending := hk.pending
  rw [offsetBy_start hshape (capacity_lt hk.sound) hn (by omega), contents_start hn, Wire.Buffer.offset,
    if_pos (by omega)]
  refine ⟨⟨sound_same hk.sound rfl (shaped_start hshape hn), hk.own, ?_, hk.closing⟩, rfl⟩
  have hused : o.sendBuffer.used = o.sendBuffer.size - o.sendBuffer.offset := rfl
  show o.sendBuffer.size - (o.sendBuffer.offset + n) < 2 ^ 31
  omega

theorem kept_clear (hk : Kept rest o) : Kept rest o.clear ∧ o.clear.sendBuffer.contents o.clear.heap = [] := by
  obtain ⟨hs, _, hown, hc, _⟩ := sound_clear hk.sound
  have hlen := length_contents hs
  rw [hc] at hlen
  refine ⟨⟨hs, hown, ?_, hk.closing⟩, hc⟩
  show (o.sendBuffer.clear o.heap).2.used < 2 ^ 31
  rw [← hlen]
  decide

theorem view_onWritable (hk : Kept rest o) (hf : w.taken ≤ o.sendBuffer.used) :
    (o.onWritable w).1 = (o.view.onWritable w).1 ∧ (o.onWritable w).2.view = (o.view.onWritable w).2 ∧
      Kept rest (o.onWritable w).2 := by
  have hlen := hk.length
  have hc : o.closing = false := hk.closing
  unfold onWritable Connection.onWritable
  by_cases h0 : o.sendBuffer.used = 0
  · have hnil : o.view.sendBuffer = [] := List.eq_nil_of_length_eq_zero (hlen.trans h0)
    rw [if_pos h0, if_pos hnil]
    exact ⟨rfl, rfl, hk.sound, hk.own, hk.pending, hk.closing⟩
  · have hne : o.view.sendBuffer ≠ [] := fun e => h0 (by rw [← hlen, e]; rfl)
    rw [if_neg h0, if_neg hne]
    obtain ⟨h, connected, readable, writable, closing, s⟩ := o
    obtain rfl : closing = false := hc
    cases w with
    | again => exact ⟨rfl, rfl, hk⟩
    | fails errno => exact ⟨rfl, rfl, hk.sound, hk.own, hk.pending, rfl⟩
    | wrote n =>
      have hf : n ≤ s.used := hf
      have hlen : (s.contents h).length = s.used := hlen
      simp only [write, Connection.write, view, hlen]
      by_cases hn : n = 0
      · rw [if_pos hn, if_pos hn]
        exact ⟨rfl, rfl, hk⟩
      rw [if_neg hn, if_neg hn]
      by_cases hpart : n < s.used
      · obtain ⟨hkept, hoff⟩ := kept_offset hk hf
        rw [if_pos hpart, if_pos hpart]
        exact ⟨rfl, congrArg (Connection.mk connected readable writable false) hoff, hkept⟩
      · obtain ⟨hkept, hnil⟩ := kept_clear hk
        rw [if_neg hpart, if_neg hpart]
        exact ⟨rfl, congrArg (Connection.mk connected readable false false) hnil, hkept.sound, hkept.own,
          hkept.pending, rfl⟩

theorem step_stream (hk : Kept rest o) (e : OutEvent) (hf : o.Fits e) :
    Kept rest (o.step e) ∧ o.taken e ++ (o.step e).sendBuffer.contents (o.step e).heap =
      o.sendBuffer.contents o.heap ++ e.bytes := by
  cases e with
  | writeToBuffer b =>
    obtain ⟨_, hview, hkept⟩ := view_writeToBuffer hk hf
    exact ⟨hkept, congrArg Connection.sendBuffer hview⟩
  | onWritable w =>
    obtain ⟨_, hview, hkept⟩ := view_onWritable hk hf
    have hpossible : o.view.Possible w := ⟨by rw [hk.length]; exact hf, Nat.lt_of_le_of_lt hf hk.pending⟩
    obtain ⟨hdrop, _, _⟩ := Connection.onWritable_keeps hk.closing hpossible
    have hc : (o.onWritable w).2.sendBuffer.contents (o.onWritable w).2.heap =
        (o.sendBuffer.contents o.heap).drop w.taken := (congrArg Connection.sendBuffer hview).trans hdrop
    refine ⟨hkept, ?_⟩
    show (o.sendBuffer.contents o.heap).take w.taken ++ (o.onWritable w).2.sendBuffer.contents
      (o.onWritable w).2.heap = o.sendBuffer.contents o.heap ++ []
    rw [hc, List.take_append_drop, List.append_nil]

/-- What is pending at first comes before what is passed later. -/
theorem run_stream (events : List OutEvent) :
    ∀ o, Kept rest o → Each step Fits o events →
      trace step taken o events ++ (events.foldl step o).sendBuffer.contents (events.foldl step o).heap =
        o.sendBuffer.contents o.heap ++ events.flatMap OutEvent.bytes := by
  induction events with
  | nil => intro o _ _; exact (List.append_nil _).symm
  | cons e events ih =>
    intro o hk hf
    obtain ⟨hkept, hstep⟩ := step_stream hk e hf.1
    have hrest := ih _ hkept hf.2
    rw [trace, List.append_assoc, List.foldl_cons, hrest, ← List.append_assoc, hstep, List.append_assoc]
    rfl

/-- Whatever `write` returns, no byte is lost, repeated or out of place. -/
theorem stream_kept {h : Heap} (hs : Sound h rest) (events : List OutEvent)
    (hf : Each step Fits (opened h) events) :
    let o := events.foldl step (opened h)
    trace step taken (opened h) events ++ o.sendBuffer.contents o.heap = events.flatMap OutEvent.bytes :=
  run_stream events (opened h) (kept_opened hs) hf

/-- Two writes with a partial one between them. -/
theorem stream_kept_two :
    let events : List OutEvent :=
      [.writeToBuffer [97, 98, 99], .onWritable (.wrote 2), .writeToBuffer [100], .onWritable .again]
    let h := Heap.start fun _ => some fun _ => 0
    let o := events.foldl step (opened h)
    trace step taken (opened h) events ++ o.sendBuffer.contents o.heap = events.flatMap OutEvent.bytes :=
  have hs : Sound (.start fun _ => some fun _ => 0) [] := sound_start fun _ => Option.some_ne_none _
  stream_kept hs _ ⟨by decide, by decide, by decide, by decide, trivial⟩

end Output

end RedisProxy.Net
