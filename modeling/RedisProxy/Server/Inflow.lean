/-
  RedisProxy.Server.Inflow — the room of the upstream's input, in numbers.

  `Server.Intake` has the buffer. How much a read brings, and whether there is one, depends
  only on how far the buffer's block is filled and on what the loop of `OnServerRead` leaves
  unread: a read without room switches the connection off, and a handler that comes to its
  end makes room for `ReadBufferMinSize` bytes.

  Proved: `handled_room`, room is kept by every read whose handler comes to its end, and by
  every one that leaves some; and `read_inflow` and `onServerRead_inflow`, the buffer over the
  heap has the room these numbers say.
-/

import RedisProxy.Server.Intake
import RedisProxy.Server.Standing

namespace RedisProxy.Server

open Lib Lib.Decimal Wire Net

structure Inflow where
  /-- `ReadBufferMinSize`. -/
  minSize : Nat
  /-- The input's block, and where the input ends in it. -/
  capacity : Nat
  size : Nat
  /-- The connection is watched for input. -/
  readable : Bool
  deriving DecidableEq, Repr

namespace Inflow

/-- After `Init`; `initSize` is `ReadBufferInitSize`. -/
def start (initSize minSize : Nat) : Inflow := ⟨minSize, initSize, 0, true⟩

def free (f : Inflow) : Nat := f.capacity - f.size

/-- `Event::Read`, to which `read` brings `count` bytes. -/
def read (f : Inflow) (count : Nat) : Inflow :=
  if f.free = 0 then { f with readable := false } else { f with size := f.size + count }

/-- The end of `OnServerRead`, `used` bytes being unread: where there is too little room they go
    to the front of the block, or of one that is large enough. -/
def makeRoom (f : Inflow) (used : Nat) : Inflow :=
  if f.free < f.minSize then { f with capacity := max f.capacity (used + f.minSize), size := used } else f

/-- A read event of the upstream's connection. -/
def onReadable {R : Type} (identity : R → Nat) (f : Inflow) (u : Upstream R) (chunk : Bytes × Bytes) : Inflow :=
  let r := Relay.onServerRead identity chunk.2 ⟨{ u with parser := u.parser.feed chunk.1 }, []⟩
  if r.1 = .ok then (f.read chunk.1.length).makeRoom r.2.upstream.parser.inputb.length else f.read chunk.1.length

variable {R : Type} {identity : R → Nat} {f : Inflow} {u : Upstream R} {chunk : Bytes × Bytes} {used : Nat}

@[simp] theorem read_minSize : (f.read used).minSize = f.minSize := by
  unfold read
  split <;> rfl

@[simp] theorem makeRoom_minSize : (f.makeRoom used).minSize = f.minSize := by
  unfold makeRoom
  split <;> rfl

@[simp] theorem makeRoom_readable : (f.makeRoom used).readable = f.readable := by
  unfold makeRoom
  split <;> rfl

theorem read_free (h : 0 < f.free) : (f.read used).free = f.free - used ∧ (f.read used).readable = f.readable := by
  unfold read
  rw [if_neg (Nat.pos_iff_ne_zero.mp h)]
  exact ⟨Nat.sub_add_eq _ _ _, rfl⟩

theorem makeRoom_free (f : Inflow) (used : Nat) : f.minSize ≤ (f.makeRoom used).free := by
  unfold makeRoom
  split
  · show f.minSize ≤ max f.capacity (used + f.minSize) - used
    omega
  · rename_i h
    exact Nat.le_of_not_lt h

/-- The calls made before do not matter. -/
theorem onReadable_log (log : List (R × Bytes)) {r : Error × Relay R}
    (hr : Relay.onServerRead identity chunk.2 ⟨{ u with parser := u.parser.feed chunk.1 }, log⟩ = r) :
    f.onReadable identity u chunk =
      if r.1 = .ok then (f.read chunk.1.length).makeRoom r.2.upstream.parser.inputb.length
      else f.read chunk.1.length := by
  rw [Relay.onServerRead, Relay.readLoop_writes] at hr
  subst hr
  rfl

@[simp] theorem onReadable_minSize : (f.onReadable identity u chunk).minSize = f.minSize := by
  unfold onReadable
  dsimp only
  split <;> simp

/-- A read that is handled to its end, or leaves room, leaves room. -/
theorem handled_room (hmin : 0 < f.minSize) (h0 : 0 < f.free)
    (h : (Relay.onServerRead identity chunk.2 ⟨{ u with parser := u.parser.feed chunk.1 }, []⟩).1 = .ok ∨
      chunk.1.length < f.free) :
    0 < (f.onReadable identity u chunk).free ∧ (f.onReadable identity u chunk).readable = f.readable := by
  obtain ⟨hfree, hread⟩ : (f.read chunk.1.length).free = f.free - chunk.1.length ∧
    (f.read chunk.1.length).readable = f.readable := read_free h0
  unfold onReadable
  dsimp only
  split
  · refine ⟨Nat.lt_of_lt_of_le hmin ?_, makeRoom_readable.trans hread⟩
    have hsame : (f.read chunk.1.length).minSize = f.minSize := read_minSize
    exact hsame.ge.trans (makeRoom_free _ _)
  · rename_i herr
    rw [hfree]
    exact ⟨Nat.sub_pos_of_lt (h.resolve_left herr), hread⟩

end Inflow

/-! ## Over the heap -/

namespace Intake

variable {R : Type} {identity : R → Nat} {s : Intake R} {minSize : Nat}

def inflow (minSize : Nat) (s : Intake R) : Inflow :=
  ⟨minSize, s.parser.inputb.capacity s.heap, s.parser.inputb.size, s.readable⟩

theorem inflow_free (hk : s.replies.Kept []) : (s.inflow minSize).free = s.freeSize := (freeSize_eq hk).symm

theorem read_inflow (hk : s.replies.Kept []) {chunk : Bytes} (hchunk : chunk.length ≤ s.freeSize) :
    (s.read chunk).2.inflow minSize = (s.inflow minSize).read chunk.length := by
  have hsize := ((input_sound hk).shaped s.parser.inputb List.mem_cons_self).size_le
  have hfree := freeSize_eq hk
  unfold read Inflow.read
  rw [inflow_free hk]
  by_cases h0 : s.freeSize = 0
  · rw [if_pos h0, if_pos h0]
    rfl
  · rw [if_neg h0, if_neg h0]
    obtain ⟨-, hrec⟩ := Mem.sound_receive (input_sound hk) (l := chunk) (by omega)
    unfold inflow
    dsimp only
    rw [hrec.capacity, hrec.place]

/-- The input has its block alone. -/
theorem input_alone (hk : s.replies.Kept []) {a : Nat} (ha : s.parser.inputb.data = some a) :
    Mem.owners [s.respBuffer] a = 0 := by
  have hown := hk.between.reading.own
  rw [Mem.owners_cons]
  by_cases hd : s.respBuffer.data = some a
  · have hnone : Mem.owners [s.parser.inputb] a = 0 := hown a hd
    rw [Mem.owners_cons, if_pos ha] at hnone
    omega
  · rw [if_neg hd]
    rfl

theorem makeRoom_inflow (hk : s.replies.Kept []) (hn : s.parser.inputb.Affords minSize) :
    (s.makeRoom minSize).2.inflow minSize = (s.inflow minSize).makeRoom s.parser.inputb.used := by
  have hsound := input_sound hk
  have hfree := freeSize_eq hk
  unfold makeRoom Inflow.makeRoom
  rw [inflow_free hk]
  by_cases hlow : s.freeSize < minSize
  · have hsize := (hsound.shaped s.parser.inputb List.mem_cons_self).size_le
    obtain ⟨h1, h2⟩ := Mem.grow_sizes hsound (n := minSize) (Nat.lt_of_le_of_lt (Nat.le_add_right _ 4) hn)
      (fun a ha => input_alone hk ha) (by omega)
    rw [if_pos hlow, if_pos (show s.freeSize < (s.inflow minSize).minSize from hlow)]
    unfold inflow
    dsimp only
    rw [h1, h2]
  · rw [if_neg hlow, if_neg (show ¬ s.freeSize < (s.inflow minSize).minSize from hlow)]

theorem onServerRead_inflow (hk : s.replies.Kept []) (hin : s.parser.inputb.used + minSize + 4 < 2 ^ 32) (far : Bytes)
    {w : Error × Relay R} (hw : Relay.onServerRead identity (s.parser.inputb.behind s.heap far) s.view = w)
    (herr : w.1 ≠ .empty) :
    (onServerRead identity minSize far s).2.inflow minSize =
      if w.1 = .ok then (s.inflow minSize).makeRoom w.2.upstream.parser.inputb.length else s.inflow minSize := by
  have hl : Looped s _ (readLoop identity far s.cmdQueue.holder.length s) := readLoop_view far _ s hk
  have hw : Relay.readLoop identity (s.parser.inputb.behind s.heap far) s.cmdQueue.holder.length s.view = w := hw
  rw [hw] at hl
  obtain ⟨herr', hview, hkept, hsize, hcap, hused, hread⟩ := hl
  unfold onServerRead
  rcases hr : readLoop identity far s.cmdQueue.holder.length s with ⟨e, t⟩
  rw [hr] at herr' hview hkept hsize hcap hused hread
  obtain rfl : e = w.1 := herr'
  have hkt : t.replies.Kept [] := hkept herr
  have hsame : t.inflow minSize = s.inflow minSize := by
    unfold inflow
    rw [show t.parser.inputb.capacity t.heap = _ from hcap, show t.parser.inputb.size = _ from hsize,
      show t.readable = _ from hread]
  by_cases hok : w.1 = .ok
  · have hafford : t.parser.inputb.Affords minSize := by
      have hused : t.parser.inputb.used ≤ s.parser.inputb.used := hused
      unfold Mem.Buffer.Affords
      omega
    have hlen : w.2.upstream.parser.inputb.length = t.parser.inputb.used := by
      rw [← hview]
      exact input_length hkt
    rw [hok, if_pos rfl, hlen, ← hsame]
    exact makeRoom_inflow hkt hafford
  · rw [if_neg hok, ← hsame]
    generalize w.1 = e at hok ⊢
    cases e with
    | ok => exact absurd rfl hok
    | _ => rfl

end Intake

end RedisProxy.Server
