/-
  RedisProxy.Mem.Buffer — `Buffer` over the heap (buffer.h, buffer.cpp).

  A buffer is a pointer to a block and two positions in it. `std::size_t` sums wrap
  (`word`); `offset_` never passes `size_`. An operation takes the heap and the buffer and
  gives them back; the source of `Append(const char*)` and of the constructor is its bytes
  as they are before the call, and so is that of each `memcpy`.

  `NDEBUG` is set: the assertions of `AppendCapacity` are not there.
-/

import RedisProxy.Mem.Heap
import RedisProxy.Wire.Buffer

namespace RedisProxy.Mem

open Lib.Cells Lib.Decimal Wire

/-- A sum as a `std::size_t`. -/
def word (n : Nat) : Nat := n % 2 ^ 64

structure Buffer where
  data : Option Nat
  size : Nat
  offset : Nat
  deriving DecidableEq, Repr

namespace Heap

/-- `DescRef`, where the pointer is not null. -/
def release (h : Heap) : Option Nat → Heap
  | none => h
  | some a => h.descRef a

/-- `IncrRef`, where the pointer is not null. -/
def acquire (h : Heap) : Option Nat → Heap
  | none => h
  | some a => h.incrRef a

/-- `IncrRef` whatever the pointer. -/
def incr (h : Heap) : Option Nat → Heap
  | none => h.stray
  | some a => h.incrRef a

end Heap

namespace Buffer

/-- `Buffer()`. -/
def null : Buffer := ⟨none, 0, 0⟩

/-- `Size()`. -/
def used (b : Buffer) : Nat := b.size - b.offset

def capacity (h : Heap) (b : Buffer) : Nat :=
  match b.data with
  | none => 0
  | some a => h.refSize a

def freeSize (h : Heap) (b : Buffer) : Nat :=
  match b.data with
  | none => 0
  | some a => word (h.refSize a + 2 ^ 64 - b.size)

/-- The bytes from `Data()` to `Tail()`. -/
def contents (h : Heap) (b : Buffer) : Bytes :=
  match b.data with
  | none => []
  | some a => cells (h.cellsAt a) b.offset b.used

/-- `operator=`; `src` may be the buffer itself. -/
def assign (h : Heap) (b src : Buffer) : Heap × Buffer := ((h.release b.data).acquire src.data, src)

/-- `Buffer( const Buffer& )`: assigned to one that is null. -/
def copy (h : Heap) (src : Buffer) : Heap × Buffer := assign h null src

/-- `~Buffer()`. -/
def destroy (h : Heap) (b : Buffer) : Heap := h.release b.data

/-- `Buffer( data, size )`; none where the allocation fails, and `memcpy` goes to a null pointer. -/
def ofBytes (h : Heap) (l : Bytes) : Option Buffer × Heap :=
  if l = [] then (some null, h)
  else
    match h.allocRef l.length with
    | (none, h) => (none, h)
    | (some a, h) => (some ⟨some a, l.length, 0⟩, h.write a 0 l)

def clear (h : Heap) (b : Buffer) : Heap × Buffer :=
  match b.data with
  | none => (h, ⟨none, 0, 0⟩)
  | some a => if 1 < h.refCount a then (h.descRef a, ⟨none, 0, 0⟩) else (h, ⟨some a, 0, 0⟩)

/-- `Offset( start, length )`. -/
def offsetBy (b : Buffer) (start length : Int) : Buffer :=
  let offset := word (b.offset + sizeT start)
  let newSize := if 0 < length then word (offset + sizeT length)
    else if sizeT (-length) < b.size then b.size - sizeT (-length) else 0
  let size := if newSize < b.size then newSize else b.size
  ⟨b.data, size, if size < offset then size else offset⟩

def appendSize (h : Heap) (b : Buffer) (n : Nat) : Error × Buffer :=
  if b.capacity h < word (b.size + n) then (.outOfBound, b) else (.ok, { b with size := word (b.size + n) })

def appendCapacity (h : Heap) (b : Buffer) (n : Nat) : Error × Heap × Buffer :=
  let needCapacity := word (n + b.size)
  if needCapacity ≤ b.capacity h then (.ok, h, b)
  else
    match b.data with
    | some a =>
      if h.refCount a = 1 ∧ needCapacity - b.capacity h ≤ b.offset then
        -- nobody else looks at the block, and what was consumed leaves room enough
        (.ok, h.write a 0 (b.contents h), ⟨some a, b.used, 0⟩)
      else
        match h.allocRef (word (needCapacity + 2 ^ 64 - b.offset)) with
        | (none, h) => (.exhausted, h, b)
        | (some a', h) => (.ok, (h.write a' 0 (b.contents h)).descRef a, ⟨some a', b.used, 0⟩)
    | none =>
      match h.allocRef needCapacity with
      | (none, h) => (.exhausted, h, b)
      | (some a, h) => (.ok, h, ⟨some a, 0, 0⟩)

/-- `memcpy` to `Tail()`. -/
def writeTail (h : Heap) (b : Buffer) (l : Bytes) : Heap :=
  match b.data with
  | none => h
  | some a => h.write a b.size l

/-- The growth `Append( data, size )` begins with. -/
def grown (h : Heap) (b : Buffer) (n : Nat) : Error × Heap × Buffer :=
  if b.capacity h < word (n + b.size) then b.appendCapacity h n else (.ok, h, b)

/-- `Append( data, size )`. -/
def appendBytes (h : Heap) (b : Buffer) (l : Bytes) : Error × Heap × Buffer :=
  match b.grown h l.length with
  | (.ok, h, b) =>
    let h := b.writeTail h l
    ((b.appendSize h l.length).1, h, (b.appendSize h l.length).2)
  | (e, h, b) => (e, h, b)

/-- `Append( buffer, size )`; `src` may be the buffer itself. -/
def append (h : Heap) (b src : Buffer) (n : Nat) : Error × Heap × Buffer :=
  if n ≠ 0 ∧ src.used < n then (.outOfBound, h, b)
  else
    let size := if n = 0 then src.used else n
    match b.data with
    | none => (.ok, h.incr src.data, ⟨src.data, word (src.offset + size), src.offset⟩)
    | some a =>
      if src.data = some a then (.ok, h, { b with size := word (b.size + size) })
      else b.appendBytes h ((src.contents h).take size)

variable {h : Heap}

/-! ## The ways through AppendCapacity -/

/-- What `AppendCapacity( n )` may leave. -/
inductive Grows (h : Heap) (b : Buffer) (n : Nat) : Error × Heap × Buffer → Prop
  | room : word (n + b.size) ≤ b.capacity h → Grows h b n (.ok, h, b)
  | place {a : Nat} : b.capacity h < word (n + b.size) → b.data = some a → h.refCount a = 1 →
      word (n + b.size) - b.capacity h ≤ b.offset →
      Grows h b n (.ok, h.write a 0 (b.contents h), ⟨some a, b.used, 0⟩)
  | move {a a' : Nat} {h' : Heap} : b.capacity h < word (n + b.size) → b.data = some a →
      ¬ (h.refCount a = 1 ∧ word (n + b.size) - b.capacity h ≤ b.offset) →
      h.allocRef (word (word (n + b.size) + 2 ^ 64 - b.offset)) = (some a', h') →
      Grows h b n (.ok, (h'.write a' 0 (b.contents h')).descRef a, ⟨some a', b.used, 0⟩)
  | first {a : Nat} {h' : Heap} : b.capacity h < word (n + b.size) → b.data = none →
      h.allocRef (word (n + b.size)) = (some a, h') → Grows h b n (.ok, h', ⟨some a, 0, 0⟩)
  | refused {h' : Heap} {size : Nat} : b.capacity h < word (n + b.size) → h.allocRef size = (none, h') →
      Grows h b n (.exhausted, h', b)

theorem grows (h : Heap) (b : Buffer) (n : Nat) : Grows h b n (b.appendCapacity h n) := by
  unfold appendCapacity
  dsimp only
  by_cases hfit : word (n + b.size) ≤ b.capacity h
  · rw [if_pos hfit]
    exact .room hfit
  rw [if_neg hfit]
  have hlt := Nat.lt_of_not_le hfit
  cases hd : b.data with
  | none =>
    rcases ha : h.allocRef (word (n + b.size)) with ⟨_ | a, h'⟩
    · exact .refused hlt ha
    · exact .first hlt hd ha
  | some a =>
    dsimp only
    by_cases hplace : h.refCount a = 1 ∧ word (n + b.size) - b.capacity h ≤ b.offset
    · rw [if_pos hplace]
      exact .place hlt hd hplace.1 hplace.2
    · rw [if_neg hplace]
      rcases ha : h.allocRef (word (word (n + b.size) + 2 ^ 64 - b.offset)) with ⟨_ | a', h'⟩
      · exact .refused hlt ha
      · exact .move hlt hd hplace ha

/-! ## The heap stays one -/

theorem sane_release (hs : h.Sane) (d : Option Nat) : (h.release d).Sane := by
  cases d with
  | none => exact hs
  | some a => exact hs.descRef a

theorem sane_assign (hs : h.Sane) (b src : Buffer) : (b.assign h src).1.Sane := by
  unfold assign
  cases src.data with
  | none => exact sane_release hs b.data
  | some a => exact (sane_release hs b.data).incrRef a

theorem sane_ofBytes (hs : h.Sane) (l : Bytes) : (ofBytes h l).2.Sane := by
  unfold ofBytes
  split
  · exact hs
  · rcases ha : h.allocRef l.length with ⟨_ | a, h'⟩
    · exact hs.allocated ha
    · exact (hs.allocated ha).write a 0 l

theorem sane_clear (hs : h.Sane) (b : Buffer) : (b.clear h).1.Sane := by
  unfold clear
  cases b.data with
  | none => exact hs
  | some a =>
    dsimp only
    split
    · exact hs.descRef a
    · exact hs

theorem sane_grow (hs : h.Sane) (b : Buffer) (n : Nat) : (b.appendCapacity h n).2.1.Sane := by
  have hg := grows h b n
  generalize b.appendCapacity h n = r at hg ⊢
  cases hg with
  | room => exact hs
  | place => exact hs.write _ _ _
  | move _ _ _ ha => exact ((hs.allocated ha).write _ _ _).descRef _
  | first _ _ ha => exact hs.allocated ha
  | refused _ ha => exact hs.allocated ha

theorem sane_writeTail (hs : h.Sane) (b : Buffer) (l : Bytes) : (b.writeTail h l).Sane := by
  unfold writeTail
  cases b.data with
  | none => exact hs
  | some a => exact hs.write a b.size l

theorem sane_appendBytes (hs : h.Sane) (b : Buffer) (l : Bytes) : (b.appendBytes h l).2.1.Sane := by
  have hgrown : (b.grown h l.length).2.1.Sane := by
    unfold grown
    split
    · exact sane_grow hs b l.length
    · exact hs
  unfold appendBytes
  rcases hg : b.grown h l.length with ⟨e, h', b'⟩
  rw [hg] at hgrown
  cases e with
  | ok => exact sane_writeTail hgrown b' l
  | _ => exact hgrown

theorem sane_append (hs : h.Sane) (b src : Buffer) (n : Nat) : (b.append h src n).2.1.Sane := by
  unfold append
  split
  · exact hs
  · cases b.data with
    | some a =>
      dsimp only
      split
      · exact hs
      · exact sane_appendBytes hs b _
    | none =>
      cases src.data with
      | none => exact hs.stray
      | some a => exact hs.incrRef a

end Buffer

end RedisProxy.Mem
