/-
  RedisProxy.Mem.Growth — `AppendCapacity`: what it keeps, copies and asserts (buffer.cpp).

  There are four ways through it: there is room; the bytes move to the front of their block; they
  move to another; a null buffer gets its first block. `Compacts` is the second, `Asks` the last two.

  `appendCapacityChecked` is the function as it is built without `NDEBUG`. `appendCapacityTraced` and
  `appendBytesTraced` keep a list of the `memcpy` calls made.

  Proved: `capacity_appended`: contents, room and the others' contents, in every way through;
  `checked_iff`: when the assertions hold; `disjoint_iff`: when no `memcpy` overlaps.
-/

import RedisProxy.Mem.Parser
import RedisProxy.Mem.Scarce

namespace RedisProxy.Mem

open Lib.Cells Lib.Decimal Wire

variable {h : Heap} {b : Buffer} {rest : List Buffer} {a n : Nat}

/-- A buffer as the heap has it: its pointer is good, and it lies in its block. -/
structure Buffer.Valid (h : Heap) (b : Buffer) : Prop where
  live : ∀ a, b.data = some a → h.blocks a ≠ none
  shaped : b.Shaped h

namespace Buffer

/-- `AppendCapacity( n )` moves the bytes to the front of their block. -/
def Compacts (h : Heap) (b : Buffer) (n : Nat) : Prop :=
  b.capacity h < word (n + b.size) ∧
    ∃ a, b.data = some a ∧ h.refCount a = 1 ∧ word (n + b.size) - b.capacity h ≤ b.offset

/-- The same block, and nothing of it. -/
def bare (b : Buffer) : Buffer := ⟨b.data, 0, 0⟩

end Buffer

/-! ## What it keeps -/

theorem owners_bare (live : List Buffer) (a : Nat) : owners (live.map Buffer.bare) a = owners live a := by
  unfold owners
  rw [List.countP_map]
  rfl

/-- Only who owns a block matters to the counts, not which part of it he looks at. -/
theorem firm_bare (hs : h.Sane) (hx : Exact h (b :: rest)) (hb : b.Shaped h) : Firm h (b :: rest.map Buffer.bare) := by
  have hown : ∀ a, owners (b :: rest.map Buffer.bare) a = owners (b :: rest) a := by
    intro a
    rw [owners_cons, owners_cons, owners_bare]
  refine ⟨hs, ⟨fun a blk ha => (hx.counts a blk ha).trans (hown a).symm, fun x hm a ha => ?_, hx.strays⟩,
    fun x hm => ?_⟩
  · rcases List.mem_cons.mp hm with rfl | hm
    · exact hx.live x List.mem_cons_self a ha
    · obtain ⟨y, hy, rfl⟩ := List.mem_map.mp hm
      exact hx.live y (List.mem_cons_of_mem _ hy) a ha
  · rcases List.mem_cons.mp hm with rfl | hm
    · exact hb
    · obtain ⟨y, _, rfl⟩ := List.mem_map.mp hm
      exact ⟨Nat.le_refl _, Nat.zero_le _⟩

/-- It is refused the block it asks for, or does what it is for. -/
theorem grow_cases (hf : Firm h (b :: rest)) (hn : b.used + n < 2 ^ 32) :
    b.Asks h n ∧ h.supply h.next = none ∧ b.appendCapacity h n = (.exhausted, h.denied, b) ∨
    ∃ h' b', b.appendCapacity h n = (.ok, h', b') ∧ Grown h.given b rest n h'.given b' := by
  obtain ⟨hg, bg, he, hgrown⟩ := sound_grow_lt hf.given hn
  by_cases hasks : b.Asks h n
  · by_cases h0 : h.supply h.next = none
    · exact Or.inl ⟨hasks, h0, appendCapacity_refused hasks h0⟩
    · obtain ⟨h', b', hok, hgiven, _⟩ := appendCapacity_granted hasks h0
      rw [hgiven] at he
      cases he
      exact Or.inr ⟨h', bg, hok, hgrown⟩
  · obtain ⟨h', b', hok, hgiven, _⟩ := appendCapacity_spare hasks
    rw [hgiven] at he
    cases he
    exact Or.inr ⟨h', bg, hok, hgrown⟩

theorem freeSize_of_room {h : Heap} {b : Buffer} (hcap : b.capacity h < 2 ^ 32) (hroom : b.size + n ≤ b.capacity h) :
    n ≤ b.freeSize h := by
  rw [freeSize_eq (by omega) hcap]
  omega

/-- `OK` with the contents kept, the room asked for and the others' contents as they were, or
    `Exhausted` with nothing changed, which comes where a block is asked for and refused. -/
theorem capacity_appended (hs : h.Sane) (hx : Exact h (b :: rest)) (hb : b.Shaped h) (hn : b.size + n < 2 ^ 32 - 8) :
    ∃ e h' b', b.appendCapacity h n = (e, h', b') ∧
      (e = .ok ∧ b'.contents h' = b.contents h ∧ n ≤ b'.freeSize h' ∧ b'.Shaped h' ∧
          (∀ x ∈ rest, x.contents h' = x.contents h) ∨
        e = .exhausted ∧ b.Asks h n ∧ h.supply h.next = none ∧ b' = b ∧ h'.blocks = h.blocks ∧
          h'.strays = h.strays) := by
  have hused : b.used = b.size - b.offset := rfl
  rcases grow_cases (firm_bare hs hx hb) (show b.used + n < 2 ^ 32 by omega) with
    ⟨hasks, h0, he⟩ | ⟨h', b', he, hg⟩
  · exact ⟨_, _, _, he, Or.inr ⟨rfl, hasks, h0, rfl, rfl, rfl⟩⟩
  · have hsame : Same h h' rest := by
      intro a ha
      rw [← owners_bare] at ha
      exact ⟨(hg.same a ha).cells, (hg.same a ha).size⟩
    have hshaped := hg.sound.shaped b' List.mem_cons_self
    exact ⟨_, _, _, he, Or.inl ⟨rfl, hg.contents, freeSize_of_room (firm_capacity (firm_given hg.sound)) hg.room,
      ⟨hshaped.offset_le, hshaped.size_le⟩, fun x hm => hsame.contents hm⟩⟩

/-- Two buffers on one block of four bytes; the shorter asks for room behind its two. -/
theorem capacity_appended_shared :
    let h := (Buffer.ofBytes (.start fun _ => some fun _ => 0) [97, 98, 99, 100]).2.incrRef 0
    let b : Buffer := ⟨some 0, 3, 1⟩
    ∃ e h' b', b.appendCapacity h 5 = (e, h', b') ∧
      (e = .ok ∧ b'.contents h' = b.contents h ∧ 5 ≤ b'.freeSize h' ∧ b'.Shaped h' ∧
          (∀ x ∈ [(⟨some 0, 4, 0⟩ : Buffer)], x.contents h' = x.contents h) ∨
        e = .exhausted ∧ b.Asks h 5 ∧ h.supply h.next = none ∧ b' = b ∧ h'.blocks = h.blocks ∧
          h'.strays = h.strays) := by
  have hs := Heap.sane_start fun _ => some fun _ => 0
  have hx := exact_ofBytes hs (sound_start fun _ => Option.some_ne_none _).exact [97, 98, 99, 100]
  exact capacity_appended ((Buffer.sane_ofBytes hs _).incrRef 0)
    ((exact_incrRef_iff hx rfl).mpr ⟨Option.some_ne_none _, by decide⟩) ⟨by decide, by decide⟩ (by decide)

/-! ## What it asserts -/

namespace Buffer

/-- The assertion `AppendCapacity` ends with, and `OK`. -/
def granted (h : Heap) (b : Buffer) (needCapacity : Nat) : Option (Error × Heap × Buffer) :=
  if needCapacity ≤ b.capacity h then some (.ok, h, b) else none

/-- `AppendCapacity( n )` without `NDEBUG`; none where an assertion fails. -/
def appendCapacityChecked (h : Heap) (b : Buffer) (n : Nat) : Option (Error × Heap × Buffer) :=
  let needCapacity := word (n + b.size)
  if needCapacity ≤ b.capacity h then b.granted h needCapacity
  else
    match b.data with
    | some a =>
      if h.refCount a = 1 ∧ needCapacity - b.capacity h ≤ b.offset then
        -- what is needed counts from the new front
        granted (h.write a 0 (b.contents h)) ⟨some a, b.used, 0⟩ (word (needCapacity + 2 ^ 64 - b.offset))
      else if word (needCapacity + 2 ^ 64 - b.offset) < b.used then none
      else
        match h.allocRef (word (needCapacity + 2 ^ 64 - b.offset)) with
        | (none, h) => some (.exhausted, h, b)
        | (some a', h) => granted ((h.write a' 0 (b.contents h)).descRef a) ⟨some a', b.used, 0⟩ needCapacity
    | none =>
      match h.allocRef needCapacity with
      | (none, h) => some (.exhausted, h, b)
      | (some a, h) => granted h ⟨some a, 0, 0⟩ needCapacity

end Buffer

theorem granted_eq {h : Heap} {b : Buffer} {need : Nat} {r : Error × Heap × Buffer} (hr : b.granted h need = some r) :
    r = (.ok, h, b) := by
  unfold Buffer.granted at hr
  split at hr
  · exact (Option.some.inj hr).symm
  · cases hr

/-- Where no assertion fails the two builds do the same. -/
theorem checked_eq {r : Error × Heap × Buffer} (hr : b.appendCapacityChecked h n = some r) :
    r = b.appendCapacity h n := by
  unfold Buffer.appendCapacityChecked at hr
  unfold Buffer.appendCapacity
  dsimp only at hr ⊢
  split at hr
  · rename_i hfit
    rw [if_pos hfit]
    exact granted_eq hr
  rename_i hfit
  rw [if_neg hfit]
  cases hd : b.data with
  | some a =>
    rw [hd] at hr
    dsimp only at hr ⊢
    split at hr
    · rename_i hplace
      rw [if_pos hplace]
      exact granted_eq hr
    rename_i hplace
    rw [if_neg hplace]
    split at hr
    · cases hr
    · rcases ha : h.allocRef (word (word (n + b.size) + 2 ^ 64 - b.offset)) with ⟨_ | a', h1⟩
      · rw [ha] at hr
        exact (Option.some.inj hr).symm
      · rw [ha] at hr
        exact granted_eq hr
  | none =>
    rw [hd] at hr
    dsimp only at hr ⊢
    rcases ha : h.allocRef (word (n + b.size)) with ⟨_ | a', h1⟩
    · rw [ha] at hr
      exact (Option.some.inj hr).symm
    · rw [ha] at hr
      exact granted_eq hr

theorem granted_isSome (h : Heap) (b : Buffer) (need : Nat) : (b.granted h need).isSome ↔ need ≤ b.capacity h := by
  unfold Buffer.granted
  split
  · rename_i hle
    exact iff_of_true rfl hle
  · rename_i hlt
    exact iff_of_false Bool.false_ne_true hlt

/-- The last assertion where the bytes were moved to the front of the block. -/
theorem granted_place (h : Heap) (a : Nat) (l : Bytes) (k need : Nat) :
    ((⟨some a, k, 0⟩ : Buffer).granted (h.write a 0 l) need).isSome ↔ need ≤ h.refSize a := by
  rw [granted_isSome]
  show need ≤ (h.write a 0 l).refSize a ↔ _
  rw [refSize_write]

/-- And where they were moved to another. -/
theorem granted_move (h0 : h.supply h.next ≠ none) (hlt : a < h.next) {size : Nat} (hsize : size < 2 ^ 32)
    (k need : Nat) :
    ∃ h', h.allocRef size = (some h.next, h') ∧ ∀ l,
      (((⟨some h.next, k, 0⟩ : Buffer).granted ((h'.write h.next 0 l).descRef a) need).isSome ↔ need ≤ size) := by
  obtain ⟨h', he, _, _, hnew⟩ := Heap.allocRef_granted h0 size
  refine ⟨h', he, fun l => ?_⟩
  rw [granted_isSome]
  show need ≤ ((h'.write h.next 0 l).descRef a).refSize h.next ↔ _
  rw [Heap.refSize_descRef (Nat.ne_of_gt hlt), refSize_write, hnew, Nat.mod_eq_of_lt hsize]

theorem Buffer.Valid.lt (hs : h.Sane) (hb : b.Valid h) (hd : b.data = some a) : a < h.next := by
  obtain ⟨blk, ha⟩ := Option.ne_none_iff_exists'.mp (hb.live a hd)
  exact hs.lt ha

theorem Buffer.Valid.capacity_lt (hs : h.Sane) (hb : b.Valid h) : b.capacity h < 2 ^ 32 := by
  unfold Buffer.capacity
  cases hd : b.data with
  | none => norm_num
  | some a =>
    obtain ⟨blk, ha⟩ := Option.ne_none_iff_exists'.mp (hb.live a hd)
    dsimp only
    rw [Heap.refSize_live ha]
    exact (hs.uint32 a blk ha).2

/-- The assertions hold exactly if nothing was consumed, or no block is asked for, or none is to be had:
    the block the bytes move to has no room for what was consumed, which the last assertion counts. -/
theorem checked_iff (hs : h.Sane) (hb : b.Valid h) (hn : b.size + n < 2 ^ 32 - 8) :
    (b.appendCapacityChecked h n).isSome ↔ b.offset = 0 ∨ ¬ b.Asks h n ∨ h.supply h.next = none := by
  obtain ⟨h1, h2⟩ := hb.shaped
  have hcap := hb.capacity_lt hs
  have hused : b.used = b.size - b.offset := rfl
  have hneed : word (n + b.size) = n + b.size := word_of_lt (by omega)
  unfold Buffer.appendCapacityChecked Buffer.Asks
  dsimp only
  rw [hneed]
  by_cases hfit : n + b.size ≤ b.capacity h
  · rw [if_pos hfit, granted_isSome]
    exact iff_of_true hfit (Or.inr (Or.inl fun hasks => absurd hasks.1 (Nat.not_lt_of_le hfit)))
  rw [if_neg hfit]
  cases hd : b.data with
  | none =>
    -- a null buffer has consumed nothing
    have h0 : b.capacity h = 0 := by rw [Buffer.capacity, hd]
    refine iff_of_true ?_ (Or.inl (by omega))
    dsimp only
    by_cases hnone : h.supply h.next = none
    · rw [Heap.allocRef_denied hnone]
      rfl
    · obtain ⟨h', he, _, _, hsize⟩ := Heap.allocRef_granted hnone (n + b.size)
      rw [he]
      refine (granted_isSome _ _ _).mpr ?_
      show n + b.size ≤ h'.refSize h.next
      rw [hsize, Nat.mod_eq_of_lt (by omega)]
  | some a =>
    have hcapa : h.refSize a = b.capacity h := by rw [Buffer.capacity, hd]
    dsimp only
    rw [word_less (show n + b.size < 2 ^ 64 by omega) (by omega)]
    by_cases hplace : h.refCount a = 1 ∧ n + b.size - b.capacity h ≤ b.offset
    · rw [if_pos hplace, granted_place]
      refine iff_of_true (by omega) (Or.inr (Or.inl fun hasks => hasks.2 a rfl hplace))
    rw [if_neg hplace, if_neg (show ¬ n + b.size - b.offset < b.used by omega)]
    by_cases hnone : h.supply h.next = none
    · rw [Heap.allocRef_denied hnone]
      exact iff_of_true rfl (Or.inr (Or.inr hnone))
    · obtain ⟨h', he, hgranted⟩ := granted_move hnone (hb.lt hs hd) (show n + b.size - b.offset < 2 ^ 32 by omega)
        b.used (n + b.size)
      have hasks : b.capacity h < n + b.size ∧ ∀ c, some a = some c → ¬ (h.refCount c = 1 ∧
          n + b.size - b.capacity h ≤ b.offset) :=
        ⟨Nat.lt_of_not_le hfit, fun c hc => by rwa [← Option.some.inj hc]⟩
      rw [he]
      dsimp only
      rw [hgranted]
      constructor
      · intro hle
        exact Or.inl (by omega)
      · rintro (h0 | hno | hno)
        · omega
        · exact absurd hasks hno
        · exact absurd hno hnone

/-- A buffer of four bytes of which one was consumed, alone on its block: there is room at the front. -/
theorem checked_iff_compacted :
    let h := (Buffer.ofBytes (.start fun _ => some fun _ => 0) [97, 98, 99, 100]).2
    let b : Buffer := ⟨some 0, 4, 1⟩
    (b.appendCapacityChecked h 1).isSome ↔ b.offset = 0 ∨ ¬ b.Asks h 1 ∨ h.supply h.next = none :=
  checked_iff (Buffer.sane_ofBytes (Heap.sane_start _) _)
    ⟨fun a ha => by cases ha; decide, by decide, by decide⟩ (by decide)

/-- `set key 1` appended, the two arguments parsed, and four more bytes to be appended. -/
theorem append_after_partial_parse :
    ¬ ∀ (h : Heap) (b : Buffer) (n : Nat), b.Valid h → b.size + n < 2 ^ 32 - 8 →
      (b.appendCapacityChecked h n).isSome := by
  intro hall
  let r := Buffer.null.appendBytes (.start fun _ => some fun _ => 0) [115, 101, 116, 32, 107, 101, 121, 32, 49]
  let p := CmdParser.parseRequest [] r.2.1 { CmdParser.init with inputb := r.2.2 } .empty
  have hb : p.2.2.1.inputb = ⟨some 0, 9, 8⟩ := by decide +kernel
  have hsome := hall p.2.1 p.2.2.1.inputb 4 ?_ ?_
  · revert hsome
    decide +kernel
  · rw [hb]
    exact ⟨fun a ha => by cases ha; decide +kernel, by decide, by decide +kernel⟩
  · rw [hb]
    decide

/-! ## What it copies -/

/-- A byte of a block. -/
structure Place where
  block : Nat
  pos : Nat
  deriving DecidableEq, Repr

/-- A call of `memcpy`; `src` is none where the bytes come from outside the heap. -/
structure Memcpy where
  dst : Place
  src : Option Place
  length : Nat
  deriving DecidableEq, Repr

namespace Memcpy

/-- No byte is both read and written. -/
def Disjoint (c : Memcpy) : Prop :=
  ∀ p, c.src = some p → ∀ i < c.length, ∀ j < c.length,
    (⟨p.block, p.pos + i⟩ : Place) ≠ ⟨c.dst.block, c.dst.pos + j⟩

/-- What a call within the heap does. -/
def run (h : Heap) (dst src : Place) (length : Nat) : Heap :=
  h.write dst.block dst.pos (cells (h.cellsAt src.block) src.pos length)

end Memcpy

namespace Buffer

/-- `AppendCapacity( n )`, and the calls of `memcpy` it makes. -/
def appendCapacityTraced (h : Heap) (b : Buffer) (n : Nat) : List Memcpy × Error × Heap × Buffer :=
  let needCapacity := word (n + b.size)
  if needCapacity ≤ b.capacity h then ([], .ok, h, b)
  else
    match b.data with
    | some a =>
      if h.refCount a = 1 ∧ needCapacity - b.capacity h ≤ b.offset then
        ([⟨⟨a, 0⟩, some ⟨a, b.offset⟩, b.used⟩], .ok, Memcpy.run h ⟨a, 0⟩ ⟨a, b.offset⟩ b.used, ⟨some a, b.used, 0⟩)
      else
        match h.allocRef (word (needCapacity + 2 ^ 64 - b.offset)) with
        | (none, h) => ([], .exhausted, h, b)
        | (some a', h) =>
          ([⟨⟨a', 0⟩, some ⟨a, b.offset⟩, b.used⟩], .ok, (Memcpy.run h ⟨a', 0⟩ ⟨a, b.offset⟩ b.used).descRef a,
            ⟨some a', b.used, 0⟩)
    | none =>
      match h.allocRef needCapacity with
      | (none, h) => ([], .exhausted, h, b)
      | (some a, h) => ([], .ok, h, ⟨some a, 0, 0⟩)

def grownTraced (h : Heap) (b : Buffer) (n : Nat) : List Memcpy × Error × Heap × Buffer :=
  if b.capacity h < word (n + b.size) then b.appendCapacityTraced h n else ([], .ok, h, b)

/-- `Append( data, size )`, `src` the place of `data`. -/
def appendBytesTraced (h : Heap) (b : Buffer) (src : Option Place) (l : Bytes) :
    List Memcpy × Error × Heap × Buffer :=
  match b.grownTraced h l.length with
  | (cs, .ok, h, b) =>
    let h' := b.writeTail h l
    (cs ++ (b.data.map fun a => (⟨⟨a, b.size⟩, src, l.length⟩ : Memcpy)).toList,
      (b.appendSize h' l.length).1, h', (b.appendSize h' l.length).2)
  | (cs, e, h, b) => (cs, e, h, b)

end Buffer

theorem capacityTraced_eq (h : Heap) (b : Buffer) (n : Nat) :
    (b.appendCapacityTraced h n).2 = b.appendCapacity h n := by
  have hrun : ∀ (h : Heap) (a a' : Nat), b.data = some a →
      Memcpy.run h ⟨a', 0⟩ ⟨a, b.offset⟩ b.used = h.write a' 0 (b.contents h) := by
    intro h a a' hd
    rw [Memcpy.run, Buffer.contents, hd]
  unfold Buffer.appendCapacityTraced Buffer.appendCapacity
  dsimp only
  split
  · rfl
  · cases hd : b.data with
    | none =>
      dsimp only
      rcases h.allocRef (word (n + b.size)) with ⟨_ | a, h'⟩ <;> rfl
    | some a =>
      dsimp only
      split
      · rw [hrun h a a hd]
      · rcases h.allocRef (word (word (n + b.size) + 2 ^ 64 - b.offset)) with ⟨_ | a', h'⟩
        · rfl
        · dsimp only
          rw [hrun h' a a' hd]

theorem bytesTraced_eq (h : Heap) (b : Buffer) (src : Option Place) (l : Bytes) :
    (b.appendBytesTraced h src l).2 = b.appendBytes h l := by
  have hgrown : (b.grownTraced h l.length).2 = b.grown h l.length := by
    unfold Buffer.grownTraced Buffer.grown
    split
    · exact capacityTraced_eq h b l.length
    · rfl
  unfold Buffer.appendBytesTraced Buffer.appendBytes
  rw [← hgrown]
  rcases b.grownTraced h l.length with ⟨cs, e, h', b'⟩
  cases e <;> rfl

variable {c : Memcpy}

theorem disjoint_of_ne (hne : ∀ p, c.src = some p → p.block ≠ c.dst.block) : c.Disjoint := by
  intro p hp i _ j _ he
  exact hne p hp (Place.mk.inj he).1

/-- To the front of the same block: the bytes must be no more than what was consumed. -/
theorem disjoint_front {k m : Nat} : (⟨⟨a, 0⟩, some ⟨a, k⟩, m⟩ : Memcpy).Disjoint ↔ m ≤ k := by
  constructor
  · intro hdis
    by_contra hlt
    refine hdis ⟨a, k⟩ rfl 0 (by show 0 < m; omega) k (Nat.lt_of_not_le hlt) ?_
    show (⟨a, k + 0⟩ : Place) = ⟨a, 0 + k⟩
    rw [Nat.add_zero, Nat.zero_add]
  · intro hle p hp i hi j hj he
    have hp : (⟨a, k⟩ : Place) = p := Option.some.inj hp
    have hj : j < m := hj
    have hpos : p.pos + i = 0 + j := (Place.mk.inj he).2
    rw [← hp] at hpos
    have hpos : k + i = 0 + j := hpos
    omega

/-- The call that `AppendCapacity( n )` may make, and where the buffer is then. -/
theorem traced_cases (hs : h.Sane) (hb : b.Valid h) {cs : List Memcpy} {e : Error} {h' : Heap} {b' : Buffer}
    (ht : b.appendCapacityTraced h n = (cs, e, h', b')) :
    (b.Compacts h n → e = .ok ∧ ∃ a, cs = [⟨⟨a, 0⟩, some ⟨a, b.offset⟩, b.used⟩]) ∧
    (¬ b.Compacts h n → ∀ c ∈ cs, c.Disjoint) ∧ (b'.data = b.data ∨ b'.data = some h.next) := by
  unfold Buffer.appendCapacityTraced at ht
  dsimp only at ht
  by_cases hfit : word (n + b.size) ≤ b.capacity h
  · rw [if_pos hfit] at ht
    cases ht
    exact ⟨fun hc => absurd hc.1 (Nat.not_lt_of_le hfit), fun _ c hm => (nomatch hm), Or.inl rfl⟩
  rw [if_neg hfit] at ht
  cases hd : b.data with
  | none =>
    have hno : ¬ b.Compacts h n := by
      rintro ⟨_, a, ha, _⟩
      rw [hd] at ha
      cases ha
    rw [hd] at ht
    dsimp only at ht
    by_cases hnone : h.supply h.next = none
    · rw [Heap.allocRef_denied hnone] at ht
      cases ht
      exact ⟨fun hc => absurd hc hno, fun _ c hm => (nomatch hm), Or.inl hd⟩
    · obtain ⟨h1, he, _⟩ := Heap.allocRef_granted hnone (word (n + b.size))
      rw [he] at ht
      cases ht
      exact ⟨fun hc => absurd hc hno, fun _ c hm => (nomatch hm), Or.inr rfl⟩
  | some a =>
    rw [hd] at ht
    dsimp only at ht
    by_cases hplace : h.refCount a = 1 ∧ word (n + b.size) - b.capacity h ≤ b.offset
    · have hyes : b.Compacts h n := ⟨Nat.lt_of_not_le hfit, a, hd, hplace⟩
      rw [if_pos hplace] at ht
      cases ht
      exact ⟨fun _ => ⟨rfl, a, rfl⟩, fun hno => absurd hyes hno, Or.inl rfl⟩
    · have hno : ¬ b.Compacts h n := by
        rintro ⟨_, a', ha, hcount⟩
        rw [hd] at ha
        cases ha
        exact hplace hcount
      rw [if_neg hplace] at ht
      by_cases hnone : h.supply h.next = none
      · rw [Heap.allocRef_denied hnone] at ht
        cases ht
        exact ⟨fun hc => absurd hc hno, fun _ c hm => (nomatch hm), Or.inl hd⟩
      · obtain ⟨h1, he, _⟩ := Heap.allocRef_granted hnone (word (word (n + b.size) + 2 ^ 64 - b.offset))
        rw [he] at ht
        cases ht
        refine ⟨fun hc => absurd hc hno, fun _ c hm => ?_, Or.inr rfl⟩
        obtain rfl := List.mem_singleton.mp hm
        refine disjoint_of_ne fun p hp => ?_
        obtain rfl := Option.some.inj hp
        -- the new block is none there was
        exact Nat.ne_of_lt (hb.lt hs hd)

theorem capacity_disjoint (hs : h.Sane) (hb : b.Valid h) (n : Nat) :
    (∀ c ∈ (b.appendCapacityTraced h n).1, c.Disjoint) ↔ ¬ (b.Compacts h n ∧ b.offset < b.used) := by
  rcases ht : b.appendCapacityTraced h n with ⟨cs, e, h', b'⟩
  obtain ⟨hyes, hno, _⟩ := traced_cases hs hb ht
  by_cases hc : b.Compacts h n
  · obtain ⟨_, a, rfl⟩ := hyes hc
    rw [List.forall_mem_singleton, disjoint_front]
    constructor
    · intro hle hlt
      exact absurd hlt.2 (Nat.not_lt_of_le hle)
    · intro hlt
      exact Nat.le_of_not_lt fun hlt' => hlt ⟨hc, hlt'⟩
  · exact iff_of_true (hno hc) fun hlt => hc hlt.1

theorem bytes_disjoint (hs : h.Sane) (hb : b.Valid h) {src : Option Place}
    (hsrc : ∀ p, src = some p → b.data ≠ some p.block ∧ h.blocks p.block ≠ none) (l : Bytes) :
    (∀ c ∈ (b.appendBytesTraced h src l).1, c.Disjoint) ↔ ¬ (b.Compacts h l.length ∧ b.offset < b.used) := by
  have hgrown : b.grownTraced h l.length = b.appendCapacityTraced h l.length := by
    unfold Buffer.grownTraced
    split
    · rfl
    · rename_i hfit
      unfold Buffer.appendCapacityTraced
      rw [if_pos (Nat.le_of_not_lt hfit)]
  rw [← capacity_disjoint hs hb]
  unfold Buffer.appendBytesTraced
  rw [hgrown]
  rcases ht : b.appendCapacityTraced h l.length with ⟨cs, e, h', b'⟩
  obtain ⟨_, _, hdata⟩ := traced_cases hs hb ht
  cases e with
  | ok =>
    have htail : ∀ c ∈ (b'.data.map fun a => (⟨⟨a, b'.size⟩, src, l.length⟩ : Memcpy)).toList, c.Disjoint := by
      intro c hm
      obtain ⟨a, ha, rfl⟩ := Option.map_eq_some_iff.mp (Option.mem_toList.mp hm)
      refine disjoint_of_ne fun p hp => ?_
      obtain ⟨hout, hlive⟩ := hsrc p hp
      rcases hdata with hsame | hnew
      · rw [← hsame, ha] at hout
        exact fun he => hout (congrArg some he.symm)
      · rw [ha] at hnew
        cases hnew
        exact fun he => hlive (hs.unused _ (Nat.le_of_eq he.symm))
    show (∀ c ∈ cs ++ _, c.Disjoint) ↔ _
    rw [List.forall_mem_append]
    exact ⟨And.left, fun hcs => ⟨hcs, htail⟩⟩
  | _ => rfl

/-- No `memcpy` of an `AppendCapacity` or an `Append( data, size )` overlaps, exactly if the bytes are not
    moved within their block, or are no more than what was consumed. -/
theorem disjoint_iff (hs : h.Sane) (hb : b.Valid h) :
    (∀ n, (∀ c ∈ (b.appendCapacityTraced h n).1, c.Disjoint) ↔ ¬ (b.Compacts h n ∧ b.offset < b.used)) ∧
    ∀ (src : Option Place) (l : Bytes), (∀ p, src = some p → b.data ≠ some p.block ∧ h.blocks p.block ≠ none) →
      ((∀ c ∈ (b.appendBytesTraced h src l).1, c.Disjoint) ↔ ¬ (b.Compacts h l.length ∧ b.offset < b.used)) :=
  ⟨capacity_disjoint hs hb, fun _ l hsrc => bytes_disjoint hs hb hsrc l⟩

/-- A full block of four bytes of which three were consumed. -/
theorem disjoint_iff_short :
    let h := (Buffer.ofBytes (.start fun _ => some fun _ => 0) [97, 98, 99, 100]).2
    let b : Buffer := ⟨some 0, 4, 3⟩
    ((∀ c ∈ (b.appendCapacityTraced h 1).1, c.Disjoint) ↔ ¬ (b.Compacts h 1 ∧ b.offset < b.used)) ∧
    ((∀ c ∈ (b.appendBytesTraced h none [101, 102]).1, c.Disjoint) ↔ ¬ (b.Compacts h 2 ∧ b.offset < b.used)) := by
  have hs := Buffer.sane_ofBytes (Heap.sane_start fun _ => some fun _ => 0) [97, 98, 99, 100]
  have hiff := disjoint_iff hs (b := ⟨some 0, 4, 3⟩) ⟨fun a ha => by cases ha; decide, by decide, by decide⟩
  exact ⟨hiff.1 1, hiff.2 none [101, 102] fun p hp => (nomatch hp)⟩

/-- The same block, one byte consumed: three bytes move by one. -/
theorem moved_onto_itself :
    ¬ ∀ (h : Heap) (b : Buffer) (n : Nat), b.Valid h → ∀ c ∈ (b.appendCapacityTraced h n).1, c.Disjoint := by
  intro hall
  have hdis := hall (Buffer.ofBytes (.start fun _ => some fun _ => 0) [97, 98, 99, 100]).2 ⟨some 0, 4, 1⟩ 1
    ⟨fun a ha => by cases ha; decide, by decide, by decide⟩ ⟨⟨0, 0⟩, some ⟨0, 1⟩, 3⟩ (by decide)
  exact absurd (disjoint_front.mp hdis) (by decide)

end RedisProxy.Mem
