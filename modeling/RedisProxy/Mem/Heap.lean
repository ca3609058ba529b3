/-
  RedisProxy.Mem.Heap — reference-counted blocks (mem_alloc.h, mem_alloc.cpp).

  A block is known by the number of its allocation; a freed one is never given out again.
  `supply` is the allocator: what the k-th allocation finds in its block, or that there is
  none. Sizes and counts are `uint32_t`.

  A call on a pointer to no block (null, or freed) goes to memory the program does not
  own. It is counted (`strays`) and changes nothing else.

  Proved: what each call leaves of the blocks (`incrRef_live`, `descRef_shared`,
  `descRef_last`, `write_live`), and that every call keeps the heap `Sane`.
-/

import RedisProxy.Lib.Cells
import RedisProxy.Lib.Decimal
import Mathlib.Logic.Function.Basic

namespace RedisProxy.Mem

open Lib.Cells Lib.Decimal

structure Block where
  capacity : Nat
  count : Nat
  bytes : Nat → Byte

structure Heap where
  blocks : Nat → Option Block
  next : Nat
  supply : Nat → Option (Nat → Byte)
  strays : Nat

namespace Heap

def start (supply : Nat → Option (Nat → Byte)) : Heap := ⟨fun _ => none, 0, supply, 0⟩

def put (h : Heap) (a : Nat) (b : Option Block) : Heap := { h with blocks := Function.update h.blocks a b }

def stray (h : Heap) : Heap := { h with strays := h.strays + 1 }

/-- `AllocRef`; `GetRefSize` of the new block is `size` as a `uint32_t`. -/
def allocRef (h : Heap) (size : Nat) : Option Nat × Heap :=
  match h.supply h.next with
  | none => (none, { h with next := h.next + 1 })
  | some junk => (some h.next, { h.put h.next (some ⟨size % 2 ^ 32, 1, junk⟩) with next := h.next + 1 })

def incrRef (h : Heap) (a : Nat) : Heap :=
  match h.blocks a with
  | none => h.stray
  | some b => h.put a (some { b with count := (b.count + 1) % 2 ^ 32 })

def descRef (h : Heap) (a : Nat) : Heap :=
  match h.blocks a with
  | none => h.stray
  | some b =>
    if (b.count + (2 ^ 32 - 1)) % 2 ^ 32 = 0 then h.put a none
    else h.put a (some { b with count := (b.count + (2 ^ 32 - 1)) % 2 ^ 32 })

def refCount (h : Heap) (a : Nat) : Nat :=
  match h.blocks a with
  | none => 0
  | some b => b.count

def refSize (h : Heap) (a : Nat) : Nat :=
  match h.blocks a with
  | none => 0
  | some b => b.capacity

/-- What is in a block. -/
def cellsAt (h : Heap) (a : Nat) : Nat → Byte :=
  match h.blocks a with
  | none => fun _ => 0
  | some b => b.bytes

/-- `memcpy` of bytes to a place in a block. -/
def write (h : Heap) (a i : Nat) (l : Bytes) : Heap :=
  match h.blocks a with
  | none => h.stray
  | some b => h.put a (some { b with bytes := fill b.bytes i l })

/-! ## What the calls leave -/

variable {h : Heap} {a c : Nat} {b : Block}

@[simp] theorem put_same (v : Option Block) : (h.put a v).blocks a = v := Function.update_self _ _ _

theorem put_ne (v : Option Block) (hne : c ≠ a) : (h.put a v).blocks c = h.blocks c := Function.update_of_ne hne _ _

theorem incrRef_live (hb : h.blocks a = some b) :
    h.incrRef a = h.put a (some { b with count := (b.count + 1) % 2 ^ 32 }) := by
  unfold incrRef
  rw [hb]

theorem write_live (hb : h.blocks a = some b) (i : Nat) (l : Bytes) :
    h.write a i l = h.put a (some { b with bytes := fill b.bytes i l }) := by
  unfold write
  rw [hb]

/-- A reference of several dropped. -/
theorem descRef_shared (hb : h.blocks a = some b) (h1 : 1 < b.count) (h2 : b.count < 2 ^ 32) :
    h.descRef a = h.put a (some { b with count := b.count - 1 }) := by
  have hc : (b.count + (2 ^ 32 - 1)) % 2 ^ 32 = b.count - 1 := by
    rw [show b.count + (2 ^ 32 - 1) = (b.count - 1) + 2 ^ 32 by omega, Nat.add_mod_right, Nat.mod_eq_of_lt (by omega)]
  unfold descRef
  rw [hb]
  dsimp only
  rw [hc, if_neg (by omega)]

/-- The last reference dropped. -/
theorem descRef_last (hb : h.blocks a = some b) (h1 : b.count = 1) : h.descRef a = h.put a none := by
  unfold descRef
  rw [hb]
  dsimp only
  rw [h1, if_pos (by norm_num)]

@[simp] theorem cellsAt_put (v : Block) : (h.put a (some v)).cellsAt a = v.bytes := by
  unfold cellsAt
  rw [put_same]

@[simp] theorem refSize_put (v : Block) : (h.put a (some v)).refSize a = v.capacity := by
  unfold refSize
  rw [put_same]

theorem cellsAt_live (hb : h.blocks a = some b) : h.cellsAt a = b.bytes := by
  unfold cellsAt
  rw [hb]

theorem refSize_live (hb : h.blocks a = some b) : h.refSize a = b.capacity := by
  unfold refSize
  rw [hb]

theorem refCount_live (hb : h.blocks a = some b) : h.refCount a = b.count := by
  unfold refCount
  rw [hb]

/-! ## Always so -/

/-- Nothing is at an address not yet given out; counts and sizes are `uint32_t`. -/
structure Sane (h : Heap) : Prop where
  unused : ∀ a, h.next ≤ a → h.blocks a = none
  uint32 : ∀ a b, h.blocks a = some b → b.count < 2 ^ 32 ∧ b.capacity < 2 ^ 32

theorem sane_start (supply : Nat → Option (Nat → Byte)) : (start supply).Sane :=
  ⟨fun _ _ => rfl, fun _ _ hb => by cases hb⟩

theorem Sane.lt (hs : h.Sane) (hb : h.blocks a = some b) : a < h.next := by
  by_contra hle
  rw [hs.unused a (Nat.le_of_not_lt hle)] at hb
  cases hb

theorem Sane.put (hs : h.Sane) (hb : h.blocks a = some b) {v : Option Block}
    (hv : ∀ b, v = some b → b.count < 2 ^ 32 ∧ b.capacity < 2 ^ 32) : (h.put a v).Sane := by
  have hlt := hs.lt hb
  refine ⟨fun c hc => ?_, fun c b' hc => ?_⟩
  · have hc : h.next ≤ c := hc
    rw [put_ne _ (show c ≠ a by omega)]
    exact hs.unused c hc
  · by_cases hca : c = a
    · subst hca
      rw [put_same] at hc
      exact hv b' hc
    · rw [put_ne _ hca] at hc
      exact hs.uint32 c b' hc

theorem Sane.stray (hs : h.Sane) : h.stray.Sane := ⟨hs.unused, hs.uint32⟩

theorem Sane.incrRef (hs : h.Sane) (a : Nat) : (h.incrRef a).Sane := by
  unfold Heap.incrRef
  cases hb : h.blocks a with
  | none => exact hs.stray
  | some b =>
    refine hs.put hb fun v hv => ?_
    obtain rfl := Option.some.inj hv
    exact ⟨Nat.mod_lt _ (by norm_num), (hs.uint32 a b hb).2⟩

theorem Sane.descRef (hs : h.Sane) (a : Nat) : (h.descRef a).Sane := by
  unfold Heap.descRef
  cases hb : h.blocks a with
  | none => exact hs.stray
  | some b =>
    dsimp only
    split
    · exact hs.put hb fun v hv => by cases hv
    · refine hs.put hb fun v hv => ?_
      obtain rfl := Option.some.inj hv
      exact ⟨Nat.mod_lt _ (by norm_num), (hs.uint32 a b hb).2⟩

theorem Sane.write (hs : h.Sane) (a i : Nat) (l : Bytes) : (h.write a i l).Sane := by
  unfold Heap.write
  cases hb : h.blocks a with
  | none => exact hs.stray
  | some b =>
    refine hs.put hb fun v hv => ?_
    obtain rfl := Option.some.inj hv
    exact hs.uint32 a b hb

theorem Sane.allocRef (hs : h.Sane) (size : Nat) : (h.allocRef size).2.Sane := by
  unfold Heap.allocRef
  cases h.supply h.next with
  | none => exact ⟨fun a ha => hs.unused a (Nat.le_of_succ_le ha), hs.uint32⟩
  | some junk =>
    refine ⟨fun a ha => ?_, fun a b' hb => ?_⟩
    · have ha : h.next + 1 ≤ a := ha
      show (h.put h.next _).blocks a = none
      rw [put_ne _ (show a ≠ h.next by omega)]
      exact hs.unused a (by omega)
    · have hb : (h.put h.next _).blocks a = some b' := hb
      by_cases hca : a = h.next
      · subst hca
        rw [put_same] at hb
        obtain rfl := Option.some.inj hb
        exact ⟨by norm_num, Nat.mod_lt _ (by norm_num)⟩
      · rw [put_ne _ hca] at hb
        exact hs.uint32 a b' hb

theorem Sane.allocated (hs : h.Sane) {size : Nat} {p : Option Nat} {h' : Heap} (ha : h.allocRef size = (p, h')) :
    h'.Sane := by
  have hsane := hs.allocRef size
  rwa [ha] at hsane

end Heap

end RedisProxy.Mem
