/-
  RedisProxy.Mem.Contents — what the buffers hold, operation by operation.

  `Sound` is what holds between operations when allocations succeed: the counts are exact
  and every buffer lies in its block (`Buffer.Shaped`). `Same` says that what a list of
  buffers points to is as it was: nobody else's contents move (`Same.contents`).

  A `uint32_t` holds the size of a block and its header (`Buffer.Affords`); with that,
  `AppendCapacity` gives the room it is asked for.

  Proved: what each operation leaves in its buffer, and `Same` for the others (`Grown`,
  `sound_grow`, `sound_receive`, `sound_appendBytes`, `sound_share`, `sound_release`).
-/

import RedisProxy.Mem.Owners

namespace RedisProxy.Mem

open Lib.Cells Lib.Decimal Wire

/-- The buffer lies in its block. -/
structure Buffer.Shaped (h : Heap) (b : Buffer) : Prop where
  offset_le : b.offset ≤ b.size
  size_le : b.size ≤ b.capacity h

structure Sound (h : Heap) (live : List Buffer) : Prop where
  sane : h.Sane
  exact : Exact h live
  shaped : ∀ b ∈ live, b.Shaped h
  plenty : ∀ n, h.supply n ≠ none

/-- The block has the bytes and the size it had. -/
structure SameAt (h h' : Heap) (a : Nat) : Prop where
  cells : h'.cellsAt a = h.cellsAt a
  size : h'.refSize a = h.refSize a

def Same (h h' : Heap) (live : List Buffer) : Prop := ∀ a, 0 < owners live a → SameAt h h' a

/-- The block `AppendCapacity( n )` asks for can be had. -/
def Buffer.Affords (b : Buffer) (n : Nat) : Prop := b.used + n + 4 < 2 ^ 32

variable {h h' h'' : Heap} {live rest : List Buffer} {a c : Nat} {b src : Buffer} {l : Bytes}

/-! ## Calls of the heap -/

theorem SameAt.refl (h : Heap) (a : Nat) : SameAt h h a := ⟨rfl, rfl⟩

theorem SameAt.trans (h1 : SameAt h h' a) (h2 : SameAt h' h'' a) : SameAt h h'' a :=
  ⟨h2.cells.trans h1.cells, h2.size.trans h1.size⟩

theorem sameAt_blocks (hb : h'.blocks a = h.blocks a) : SameAt h h' a :=
  ⟨by rw [Heap.cellsAt, Heap.cellsAt, hb], by rw [Heap.refSize, Heap.refSize, hb]⟩

theorem sameAt_incrRef (h : Heap) (c a : Nat) : SameAt h (h.incrRef c) a := by
  cases hb : h.blocks c with
  | none =>
    unfold Heap.incrRef
    rw [hb]
    exact sameAt_blocks rfl
  | some blk =>
    rw [Heap.incrRef_live hb]
    by_cases hac : a = c
    · subst hac
      exact ⟨by rw [Heap.cellsAt_put, Heap.cellsAt_live hb], by rw [Heap.refSize_put, Heap.refSize_live hb]⟩
    · exact sameAt_blocks (Heap.put_ne _ hac)

theorem sameAt_write (hac : a ≠ c) (i : Nat) (l : Bytes) : SameAt h (h.write c i l) a := by
  unfold Heap.write
  cases h.blocks c with
  | none => exact sameAt_blocks rfl
  | some blk => exact sameAt_blocks (Heap.put_ne _ hac)

theorem sameAt_allocRef (hac : a ≠ h.next) (size : Nat) : SameAt h (h.allocRef size).2 a := by
  unfold Heap.allocRef
  cases h.supply h.next with
  | none => exact sameAt_blocks rfl
  | some junk => exact sameAt_blocks (Heap.put_ne _ hac)

theorem sameAt_descRef (hac : a ≠ c) : SameAt h (h.descRef c) a := by
  unfold Heap.descRef
  cases h.blocks c with
  | none => exact sameAt_blocks rfl
  | some blk =>
    dsimp only
    split
    · exact sameAt_blocks (Heap.put_ne _ hac)
    · exact sameAt_blocks (Heap.put_ne _ hac)

/-- A dropped reference leaves a block that somebody else has. -/
theorem sameAt_release (hs : h.Sane) (hx : Exact h (b :: rest)) (ha : 0 < owners rest a) :
    SameAt h (h.release b.data) a := by
  cases hd : b.data with
  | none => exact .refl h a
  | some c =>
    obtain ⟨blk, hb⟩ := Option.ne_none_iff_exists'.mp (hx.live b List.mem_cons_self c hd)
    show SameAt h (h.descRef c) a
    by_cases hac : a = c
    · subst hac
      have hcount := hx.counts a blk hb
      have hlt := (hs.uint32 a blk hb).1
      rw [owners_cons, if_pos hd] at hcount
      rw [Heap.descRef_shared hb (by omega) hlt]
      exact ⟨by rw [Heap.cellsAt_put, Heap.cellsAt_live hb], by rw [Heap.refSize_put, Heap.refSize_live hb]⟩
    · exact sameAt_descRef hac

@[simp] theorem supply_incrRef (h : Heap) (a : Nat) : (h.incrRef a).supply = h.supply := by
  unfold Heap.incrRef
  cases h.blocks a <;> rfl

@[simp] theorem supply_descRef (h : Heap) (a : Nat) : (h.descRef a).supply = h.supply := by
  unfold Heap.descRef
  cases h.blocks a with
  | none => rfl
  | some b =>
    dsimp only
    split <;> rfl

@[simp] theorem supply_write (h : Heap) (a i : Nat) (l : Bytes) : (h.write a i l).supply = h.supply := by
  unfold Heap.write
  cases h.blocks a <;> rfl

@[simp] theorem supply_allocRef (h : Heap) (n : Nat) : (h.allocRef n).2.supply = h.supply := by
  unfold Heap.allocRef
  cases h.supply h.next <;> rfl

theorem cellsAt_write (ha : h.blocks a ≠ none) (i : Nat) (l : Bytes) :
    (h.write a i l).cellsAt a = fill (h.cellsAt a) i l := by
  obtain ⟨blk, hb⟩ := Option.ne_none_iff_exists'.mp ha
  rw [Heap.write_live hb, Heap.cellsAt_put, Heap.cellsAt_live hb]

theorem refSize_write (h : Heap) (c a i : Nat) (l : Bytes) : (h.write c i l).refSize a = h.refSize a := by
  by_cases hac : a = c
  · subst hac
    cases hb : h.blocks a with
    | none =>
      unfold Heap.write
      rw [hb]
      rfl
    | some blk => rw [Heap.write_live hb, Heap.refSize_put, Heap.refSize_live hb]
  · exact (sameAt_write hac i l).size

/-! ## What others point to -/

theorem Same.refl (h : Heap) (live : List Buffer) : Same h h live := fun a _ => .refl h a

theorem Same.trans (h1 : Same h h' live) (h2 : Same h' h'' live) : Same h h'' live :=
  fun a ha => (h1 a ha).trans (h2 a ha)

theorem Same.mono {live' : List Buffer} (hs : Same h h' live) (hsub : live' ⊆ live) : Same h h' live' := by
  intro a ha
  obtain ⟨b, hm, hb⟩ := List.countP_pos_iff.mp ha
  exact hs a (owners_pos (hsub hm) (by simpa using hb))

theorem Same.tail (hs : Same h h' (b :: live)) : Same h h' live := hs.mono (List.subset_cons_self b live)

theorem SameAt.contents (hs : SameAt h h' a) (hd : b.data = some a) : b.contents h' = b.contents h := by
  unfold Buffer.contents
  rw [hd]
  exact congrArg (fun f => Lib.Cells.cells f b.offset b.used) hs.cells

theorem Same.contents (hs : Same h h' live) (hm : b ∈ live) : b.contents h' = b.contents h := by
  cases hd : b.data with
  | none => rw [Buffer.contents, Buffer.contents, hd]
  | some a => exact (hs a (owners_pos hm hd)).contents hd

theorem Same.capacity (hs : Same h h' live) (hm : b ∈ live) : b.capacity h' = b.capacity h := by
  unfold Buffer.capacity
  cases hd : b.data with
  | none => rfl
  | some a => exact (hs a (owners_pos hm hd)).size

theorem Same.shaped (hs : Same h h' live) (hshape : ∀ b ∈ live, b.Shaped h) : ∀ b ∈ live, b.Shaped h' := by
  intro b hm
  obtain ⟨h1, h2⟩ := hshape b hm
  exact ⟨h1, by rwa [hs.capacity hm]⟩

/-! ## References taken and dropped -/

theorem sound_start {supply : Nat → Option (Nat → Byte)} (hp : ∀ n, supply n ≠ none) : Sound (.start supply) [] :=
  ⟨Heap.sane_start supply, ⟨fun _ _ hb => (nomatch hb), fun _ hm => (nomatch hm), rfl⟩, fun _ hm => (nomatch hm), hp⟩

theorem sound_perm {live' : List Buffer} (hp : live.Perm live') (hs : Sound h live) : Sound h live' :=
  ⟨hs.sane, exact_perm hp hs.exact, fun b hb => hs.shaped b (hp.mem_iff.mpr hb), hs.plenty⟩

theorem sound_swap {b' : Buffer} (hs : Sound h (b :: b' :: rest)) : Sound h (b' :: b :: rest) :=
  sound_perm (List.Perm.swap b' b rest) hs

/-- Another place in the same block. -/
theorem sound_same {b' : Buffer} (hs : Sound h (b :: rest)) (hd : b'.data = b.data) (hb : b'.Shaped h) :
    Sound h (b' :: rest) := by
  refine ⟨hs.sane, (exact_same hd).mpr hs.exact, fun x hm => ?_, hs.plenty⟩
  rcases List.mem_cons.mp hm with rfl | hm
  · exact hb
  · exact hs.shaped x (List.mem_cons_of_mem _ hm)

theorem sound_null (hs : Sound h live) : Sound h (.null :: live) := by
  refine ⟨hs.sane, (exact_null rfl).mpr hs.exact, fun x hm => ?_, hs.plenty⟩
  rcases List.mem_cons.mp hm with rfl | hm
  · exact ⟨Nat.le_refl _, Nat.le_refl _⟩
  · exact hs.shaped x hm

theorem sound_release (hs : Sound h (b :: rest)) :
    Sound (h.release b.data) rest ∧ Same h (h.release b.data) rest := by
  have hsame : Same h (h.release b.data) rest := fun a ha => sameAt_release hs.sane hs.exact ha
  refine ⟨⟨Buffer.sane_release hs.sane _, exact_release hs.sane hs.exact,
    hsame.shaped fun x hm => hs.shaped x (List.mem_cons_of_mem _ hm), fun n => ?_⟩, hsame⟩
  cases b.data with
  | none => exact hs.plenty n
  | some a =>
    show (h.descRef a).supply n ≠ none
    rw [supply_descRef]
    exact hs.plenty n

theorem sound_acquire (hs : Sound h live) (hb : b.Shaped h)
    (hd : ∀ a, b.data = some a → 0 < owners live a ∧ owners live a + 1 < 2 ^ 32) :
    Sound (h.acquire b.data) (b :: live) ∧ Same h (h.acquire b.data) live := by
  have hall : ∀ a, SameAt h (h.acquire b.data) a := by
    intro a
    cases b.data with
    | none => exact .refl h a
    | some c => exact sameAt_incrRef h c a
  have hsame : Same h (h.acquire b.data) live := fun a _ => hall a
  have hcap : b.capacity (h.acquire b.data) = b.capacity h := by
    unfold Buffer.capacity
    cases hc : b.data with
    | none => rfl
    | some c => exact (sameAt_incrRef h c c).size
  refine ⟨⟨?_, exact_acquire hs.exact fun a ha => ?_, fun x hm => ?_, fun n => ?_⟩, hsame⟩
  · cases b.data with
    | none => exact hs.sane
    | some c => exact hs.sane.incrRef c
  · obtain ⟨hpos, hlt⟩ := hd a ha
    exact ⟨live_of_owners hs.exact hpos, hlt⟩
  · rcases List.mem_cons.mp hm with rfl | hm
    · exact ⟨hb.offset_le, by rw [hcap]; exact hb.size_le⟩
    · exact hsame.shaped hs.shaped x hm
  · cases b.data with
    | none => exact hs.plenty n
    | some c =>
      show (h.incrRef c).supply n ≠ none
      rw [supply_incrRef]
      exact hs.plenty n

theorem sound_write (hs : Sound h live) (ha : h.blocks a ≠ none) (i : Nat) (l : Bytes) :
    Sound (h.write a i l) live := by
  refine ⟨hs.sane.write a i l, exact_write hs.exact ha i l, fun b hm => ?_, fun n => ?_⟩
  · obtain ⟨h1, h2⟩ := hs.shaped b hm
    refine ⟨h1, ?_⟩
    unfold Buffer.capacity at h2 ⊢
    cases hd : b.data with
    | none => rwa [hd] at h2
    | some c =>
      rw [hd] at h2
      dsimp only
      rwa [refSize_write]
  · rw [supply_write]
    exact hs.plenty n

theorem same_write (h0 : owners live a = 0) (i : Nat) (l : Bytes) : Same h (h.write a i l) live :=
  fun c hc => sameAt_write (fun e => by subst e; omega) i l

/-! ## Allocation -/

theorem sound_allocRef (hs : Sound h live) (size : Nat) :
    ∃ h', h.allocRef size = (some h.next, h') ∧ h'.refSize h.next = size % 2 ^ 32 ∧ h'.blocks h.next ≠ none ∧
      owners live h.next = 0 ∧ Same h h' live ∧
      ∀ b : Buffer, b.data = some h.next → b.offset ≤ b.size → b.size ≤ size % 2 ^ 32 → Sound h' (b :: live) := by
  have hnone := owners_next hs.sane hs.exact
  have hsane := hs.sane.allocRef size
  have hsupply := supply_allocRef h size
  have hsame : Same h (h.allocRef size).2 live :=
    fun a ha => sameAt_allocRef (fun e => by subst e; omega) size
  rcases exact_allocRef hs.exact hs.sane size with ⟨h', he, _⟩ | ⟨h', he, hnew, hx⟩
  · obtain ⟨junk, hj⟩ := Option.ne_none_iff_exists'.mp (hs.plenty h.next)
    unfold Heap.allocRef at he
    rw [hj] at he
    cases he
  · have hsize : h'.refSize h.next = size % 2 ^ 32 := by
      unfold Heap.allocRef at he
      obtain ⟨junk, hj⟩ := Option.ne_none_iff_exists'.mp (hs.plenty h.next)
      rw [hj] at he
      simp only [Prod.mk.injEq, true_and] at he
      rw [← he]
      exact Heap.refSize_put (h := h) (a := h.next) ⟨size % 2 ^ 32, 1, junk⟩
    rw [he] at hsane hsupply hsame
    refine ⟨h', he, hsize, hnew, hnone, hsame, fun b hd h1 h2 => ⟨hsane, hx b hd, fun x hm => ?_, fun n => ?_⟩⟩
    · rcases List.mem_cons.mp hm with rfl | hm
      · refine ⟨h1, ?_⟩
        unfold Buffer.capacity
        rw [hd]
        dsimp only
        rwa [hsize]
      · exact hsame.shaped hs.shaped x hm
    · show h'.supply n ≠ none
      rw [show h'.supply = h.supply from hsupply]
      exact hs.plenty n

/-- What `AppendCapacity( n )` leaves. -/
structure Grown (h : Heap) (b : Buffer) (rest : List Buffer) (n : Nat) (h' : Heap) (b' : Buffer) : Prop where
  sound : Sound h' (b' :: rest)
  same : Same h h' rest
  contents : b'.contents h' = b.contents h
  used : b'.used = b.used
  room : b'.size + n ≤ b'.capacity h'
  size_le : b'.size ≤ b.size
  block : b.data ≠ none → b'.data ≠ none
  /-- A block it moves to, or moves its bytes in, is its own. -/
  alone : b' = b ∨ ∀ a, b'.data = some a → owners rest a = 0

theorem capacity_lt (hs : Sound h (b :: rest)) : b.capacity h < 2 ^ 32 := by
  unfold Buffer.capacity
  cases hd : b.data with
  | none => norm_num
  | some a =>
    obtain ⟨blk, hb⟩ := Option.ne_none_iff_exists'.mp (hs.exact.live b List.mem_cons_self a hd)
    dsimp only
    rw [Heap.refSize_live hb]
    exact (hs.sane.uint32 a blk hb).2

theorem word_of_lt {n : Nat} (hn : n < 2 ^ 64) : word n = n := Nat.mod_eq_of_lt hn

/-- A difference of `std::size_t`. -/
theorem word_less {m k : Nat} (hm : m < 2 ^ 64) (hk : k ≤ m) : word (m + 2 ^ 64 - k) = m - k := by
  unfold word
  rw [show m + 2 ^ 64 - k = (m - k) + 2 ^ 64 by omega, Nat.add_mod_right, Nat.mod_eq_of_lt (by omega)]

theorem freeSize_eq (hle : b.size ≤ b.capacity h) (hcap : b.capacity h < 2 ^ 32) :
    b.freeSize h = b.capacity h - b.size := by
  unfold Buffer.freeSize
  unfold Buffer.capacity at hle hcap ⊢
  cases hd : b.data with
  | none => exact (Nat.zero_sub _).symm
  | some a =>
    rw [hd] at hle hcap
    dsimp only at hle hcap ⊢
    exact word_less (by omega) hle

theorem sound_freeSize (hs : Sound h (b :: rest)) : b.freeSize h = b.capacity h - b.size :=
  freeSize_eq (hs.shaped b List.mem_cons_self).size_le (capacity_lt hs)

theorem Grown.freeSize_ge {h' : Heap} {b' : Buffer} {n : Nat} (hg : Grown h b rest n h' b') : n ≤ b'.freeSize h' := by
  have hroom := hg.room
  rw [sound_freeSize hg.sound]
  omega

theorem length_contents_le (h : Heap) (b : Buffer) : (b.contents h).length ≤ b.used := by
  unfold Buffer.contents
  cases b.data with
  | none => exact Nat.zero_le _
  | some a => exact Nat.le_of_eq (length_cells _ _ _)

theorem Buffer.Shaped.length (hb : b.Shaped h) : (b.contents h).length = b.used := by
  have hle := hb.size_le
  unfold Buffer.contents
  unfold Buffer.capacity at hle
  cases hd : b.data with
  | none =>
    rw [hd] at hle
    have hle : b.size ≤ 0 := hle
    show 0 = b.size - b.offset
    omega
  | some a => exact length_cells _ _ _

theorem Buffer.Shaped.data_of_pos (hb : b.Shaped h) (hpos : 0 < b.used) : ∃ a, b.data = some a := by
  cases hd : b.data with
  | some a => exact ⟨a, rfl⟩
  | none =>
    have hlen := hb.length
    rw [Buffer.contents, hd] at hlen
    have hlen : 0 = b.used := hlen
    omega

theorem length_contents (hs : Sound h (b :: rest)) : (b.contents h).length = b.used :=
  (hs.shaped b List.mem_cons_self).length

/-- A block filled from its front. -/
theorem contents_front {n : Nat} {l : Bytes} (ha : h.blocks a ≠ none) (hn : n = l.length) :
    Buffer.contents (h.write a 0 l) ⟨some a, n, 0⟩ = l := by
  subst hn
  show cells ((h.write a 0 l).cellsAt a) 0 (l.length - 0) = l
  rw [cellsAt_write ha, Nat.sub_zero, cells_fill]

/-- Nobody else looks at the block: the bytes move to its front. -/
theorem grown_place (hs : Sound h (b :: rest)) (hd : b.data = some a) (hnone : owners rest a = 0) {n : Nat}
    (hroom : b.used + n ≤ b.capacity h) : Grown h b rest n (h.write a 0 (b.contents h)) ⟨some a, b.used, 0⟩ := by
  have hlive := hs.exact.live b List.mem_cons_self a hd
  have hcap : (h.write a 0 (b.contents h)).refSize a = b.capacity h := by
    rw [refSize_write, Buffer.capacity, hd]
  have hused : b.used = b.size - b.offset := rfl
  refine ⟨?_, same_write hnone 0 _, ?_, Nat.sub_zero _, ?_, ?_, fun _ => Option.some_ne_none a, Or.inr fun c hc => ?_⟩
  · refine sound_same (sound_write hs hlive 0 (b.contents h)) hd.symm ⟨Nat.zero_le _, ?_⟩
    show b.used ≤ (h.write a 0 (b.contents h)).refSize a
    rw [hcap]
    omega
  · exact contents_front hlive (length_contents hs).symm
  · show b.used + n ≤ (h.write a 0 (b.contents h)).refSize a
    rwa [hcap]
  · show b.used ≤ b.size
    omega
  · obtain rfl := Option.some.inj hc
    exact hnone

/-- A block of the size needed, the bytes copied to its front, the old one dropped. -/
theorem grown_move (hs : Sound h (b :: rest)) (hd : b.data = some a) {n : Nat} (hn : b.used + n < 2 ^ 32) :
    ∃ h1, h.allocRef (b.used + n) = (some h.next, h1) ∧
      Grown h b rest n ((h1.write h.next 0 (b.contents h1)).descRef a) ⟨some h.next, b.used, 0⟩ := by
  have hused : b.used = b.size - b.offset := rfl
  obtain ⟨h1, he, hnew, hnewlive, hnone, hsame, hsound⟩ := sound_allocRef hs (b.used + n)
  rw [Nat.mod_eq_of_lt (show b.used + n < 2 ^ 32 by omega)] at hnew hsound
  refine ⟨h1, he, ?_⟩
  rw [hsame.contents List.mem_cons_self]
  have hs1 := hsound ⟨some h.next, b.used, 0⟩ rfl (Nat.zero_le _) (by show b.used ≤ _; omega)
  have hs2 := sound_write hs1 hnewlive 0 (b.contents h)
  have hsame2 : Same h1 (h1.write h.next 0 (b.contents h)) (b :: rest) := same_write hnone 0 _
  obtain ⟨hs3, hsame3⟩ := sound_release (sound_swap hs2)
  rw [hd] at hs3 hsame3
  have hlast := hsame3 h.next (by rw [owners_cons, if_pos rfl]; omega)
  refine ⟨hs3, ((hsame.trans hsame2).tail).trans hsame3.tail, ?_, Nat.sub_zero _, ?_, ?_,
    fun _ => Option.some_ne_none h.next, Or.inr fun c hc => ?_⟩
  · have hkept : Buffer.contents ((h1.write h.next 0 (b.contents h)).descRef a) ⟨some h.next, b.used, 0⟩ = _ :=
      SameAt.contents hlast rfl
    rw [hkept]
    exact contents_front hnewlive (length_contents hs).symm
  · show b.used + n ≤ ((h1.write h.next 0 (b.contents h)).descRef a).refSize h.next
    rw [show ((h1.write h.next 0 (b.contents h)).descRef a).refSize h.next = _ from hlast.size,
      refSize_write, hnew]
  · show b.used ≤ b.size
    omega
  · obtain rfl := Option.some.inj hc
    rw [owners_cons] at hnone
    omega

/-- The first block. -/
theorem grown_first (hs : Sound h (b :: rest)) (hd : b.data = none) {n : Nat} (hn : b.used + n < 2 ^ 32) :
    ∃ h1, h.allocRef n = (some h.next, h1) ∧ Grown h b rest n h1 ⟨some h.next, 0, 0⟩ := by
  have hused : b.used = b.size - b.offset := rfl
  have hlen := length_contents hs
  have hc : b.contents h = [] := by rw [Buffer.contents, hd]
  rw [hc] at hlen
  have hrest : Sound h rest :=
    ⟨hs.sane, (exact_null hd).mp hs.exact, fun x hm => hs.shaped x (List.mem_cons_of_mem _ hm), hs.plenty⟩
  obtain ⟨h1, he, hnew, _, hnone, hsame, hsound⟩ := sound_allocRef hrest n
  refine ⟨h1, he, hsound _ rfl (Nat.le_refl _) (Nat.zero_le _), hsame, hc.symm ▸ rfl, hlen, ?_, Nat.zero_le _,
    fun _ => Option.some_ne_none h.next, Or.inr fun a ha => ?_⟩
  · show 0 + n ≤ h1.refSize h.next
    rw [hnew, Nat.mod_eq_of_lt (by omega)]
    omega
  · obtain rfl := Option.some.inj ha
    exact hnone

/-- The size of the block asked for is a `uint32_t`. -/
theorem sound_grow_lt (hs : Sound h (b :: rest)) {n : Nat} (hn : b.used + n < 2 ^ 32) :
    ∃ h' b', b.appendCapacity h n = (.ok, h', b') ∧ Grown h b rest n h' b' := by
  have hshape := hs.shaped b List.mem_cons_self
  have hcap := capacity_lt hs
  have hle := hshape.offset_le
  have hsize := hshape.size_le
  have hused : b.used = b.size - b.offset := rfl
  unfold Buffer.appendCapacity
  dsimp only
  rw [word_of_lt (show n + b.size < 2 ^ 64 by omega)]
  by_cases hfit : n + b.size ≤ b.capacity h
  · rw [if_pos hfit]
    exact ⟨h, b, rfl, hs, .refl h rest, rfl, rfl, by omega, Nat.le_refl _, id, Or.inl rfl⟩
  rw [if_neg hfit]
  cases hd : b.data with
  | none =>
    have h0 : b.size = 0 := by
      have hcap0 : b.capacity h = 0 := by rw [Buffer.capacity, hd]
      omega
    obtain ⟨h1, he, hg⟩ := grown_first hs hd hn
    rw [h0, Nat.add_zero, he]
    exact ⟨h1, _, rfl, hg⟩
  | some a =>
    have hlive := hs.exact.live b List.mem_cons_self a hd
    dsimp only
    split
    · rename_i hplace
      obtain ⟨hcount, hroom⟩ := hplace
      obtain ⟨blk, hb⟩ := Option.ne_none_iff_exists'.mp hlive
      have hcounts := hs.exact.counts a blk hb
      rw [Heap.refCount_live hb] at hcount
      rw [owners_cons, if_pos hd, hcount] at hcounts
      exact ⟨_, _, rfl, grown_place hs hd (by omega) (by omega)⟩
    · obtain ⟨h1, he, hg⟩ := grown_move hs hd hn
      rw [word_less (by omega) (by omega), show n + b.size - b.offset = b.used + n by omega, he]
      exact ⟨_, _, rfl, hg⟩

theorem sound_grow (hs : Sound h (b :: rest)) {n : Nat} (hn : b.Affords n) :
    ∃ h' b', b.appendCapacity h n = (.ok, h', b') ∧ Grown h b rest n h' b' :=
  sound_grow_lt hs (Nat.lt_of_le_of_lt (Nat.le_add_right _ 4) hn)

/-- A buffer that has its block alone: the bytes go to the front of it where that makes room
    enough, or to the front of a block of the size needed. -/
theorem grow_sizes (hs : Sound h (b :: rest)) {n : Nat} (hn : b.used + n < 2 ^ 32)
    (halone : ∀ a, b.data = some a → owners rest a = 0) (hlow : b.capacity h < b.size + n) :
    (b.appendCapacity h n).2.2.size = b.used ∧
      (b.appendCapacity h n).2.2.capacity (b.appendCapacity h n).2.1 = max (b.capacity h) (b.used + n) := by
  have hshape := hs.shaped b List.mem_cons_self
  have hcap := capacity_lt hs
  have hle := hshape.offset_le
  have hsize := hshape.size_le
  have hused : b.used = b.size - b.offset := rfl
  unfold Buffer.appendCapacity
  dsimp only
  rw [word_of_lt (show n + b.size < 2 ^ 64 by omega), if_neg (by omega)]
  cases hd : b.data with
  | none =>
    have hcap0 : b.capacity h = 0 := by rw [Buffer.capacity, hd]
    obtain ⟨h1, he, hnew, -⟩ := sound_allocRef hs (n + b.size)
    dsimp only
    rw [he]
    refine ⟨by show 0 = b.used; omega, ?_⟩
    show h1.refSize h.next = _
    rw [hnew, Nat.mod_eq_of_lt (by omega)]
    omega
  | some a =>
    have hlive := hs.exact.live b List.mem_cons_self a hd
    obtain ⟨blk, hb⟩ := Option.ne_none_iff_exists'.mp hlive
    have hcount : h.refCount a = 1 := by
      rw [Heap.refCount_live hb, hs.exact.counts a blk hb, owners_cons, if_pos hd, halone a hd]
    dsimp only
    rw [hcount]
    by_cases hplace : n + b.size - b.capacity h ≤ b.offset
    · rw [if_pos ⟨rfl, hplace⟩]
      refine ⟨rfl, ?_⟩
      show (h.write a 0 (b.contents h)).refSize a = _
      have hblock : h.refSize a = b.capacity h := by rw [Buffer.capacity, hd]
      rw [refSize_write, hblock]
      omega
    · rw [if_neg fun hc => hplace hc.2, word_less (by omega) (by omega),
        show n + b.size - b.offset = b.used + n by omega]
      obtain ⟨h1, he, hnew, -⟩ := sound_allocRef hs (b.used + n)
      have hne : h.next ≠ a := fun e => by
        have := hs.sane.lt hb
        omega
      rw [he]
      refine ⟨rfl, ?_⟩
      show ((h1.write h.next 0 (b.contents h1)).descRef a).refSize h.next = _
      rw [(sameAt_descRef hne).size, refSize_write, hnew, Nat.mod_eq_of_lt (by omega)]
      omega

/-! ## Bytes at the tail -/

/-- What bytes at the tail leave, `AppendSize` done. -/
structure Received (h : Heap) (b : Buffer) (rest : List Buffer) (l : Bytes) (h' : Heap) (b' : Buffer) : Prop where
  sound : Sound h' (b' :: rest)
  contents : b'.contents h' = b.contents h ++ l
  place : b' = { b with size := b.size + l.length }
  sizes : ∀ a, h'.refSize a = h.refSize a
  others : ∀ a, b.data ≠ some a → SameAt h h' a
  /-- Who ends where the bytes begin, or before, does not see them. -/
  below : ∀ x ∈ rest, (x.data = b.data → x.size ≤ b.size) → x.contents h' = x.contents h

theorem Received.capacity {l : Bytes} {h' : Heap} {b' : Buffer} (hr : Received h b rest l h' b') :
    b'.capacity h' = b.capacity h := by
  rw [hr.place]
  unfold Buffer.capacity
  cases b.data with
  | none => rfl
  | some a => exact hr.sizes a

theorem sound_receive (hs : Sound h (b :: rest)) (hl : b.size + l.length ≤ b.capacity h) :
    (b.appendSize (b.writeTail h l) l.length).1 = .ok ∧
      Received h b rest l (b.writeTail h l) (b.appendSize (b.writeTail h l) l.length).2 := by
  have hcap := capacity_lt hs
  have hshape := hs.shaped b List.mem_cons_self
  have hsizes : ∀ a, (b.writeTail h l).refSize a = h.refSize a := by
    intro a
    unfold Buffer.writeTail
    cases b.data with
    | none => rfl
    | some c => exact refSize_write h c a b.size l
  have hcap' : b.capacity (b.writeTail h l) = b.capacity h := by
    unfold Buffer.capacity
    cases b.data with
    | none => rfl
    | some c => exact hsizes c
  have hothers : ∀ a, b.data ≠ some a → SameAt h (b.writeTail h l) a := by
    intro a hne
    unfold Buffer.writeTail
    cases hd : b.data with
    | none => exact .refl h a
    | some c => exact sameAt_write (fun e => hne (hd.trans (congrArg some e.symm))) b.size l
  have happ : b.appendSize (b.writeTail h l) l.length = (.ok, { b with size := b.size + l.length }) := by
    unfold Buffer.appendSize
    rw [hcap', word_of_lt (by omega), if_neg (by omega)]
  have hwrite : Sound (b.writeTail h l) (b :: rest) := by
    unfold Buffer.writeTail
    cases hd : b.data with
    | none => exact hs
    | some a => exact sound_write hs (hs.exact.live b List.mem_cons_self a hd) b.size l
  rw [happ]
  refine ⟨rfl, ?_, ?_, rfl, hsizes, hothers, fun x hm hx => ?_⟩
  · refine sound_same hwrite rfl ⟨Nat.le_trans hshape.offset_le (Nat.le_add_right _ _), ?_⟩
    show b.size + l.length ≤ b.capacity (b.writeTail h l)
    rwa [hcap']
  · cases hd : b.data with
    | none =>
      have hcap0 : b.capacity h = 0 := by rw [Buffer.capacity, hd]
      have hnil : l = [] := List.eq_nil_of_length_eq_zero (by omega)
      rw [hnil, Buffer.contents, Buffer.contents, hd]
      rfl
    | some a =>
      have hlive := hs.exact.live b List.mem_cons_self a hd
      have hle := hshape.offset_le
      have hend : b.offset + b.used = b.size := Nat.add_sub_cancel' hle
      rw [Buffer.contents, Buffer.contents, Buffer.writeTail, hd]
      dsimp only
      have hused : (⟨some a, b.size + l.length, b.offset⟩ : Buffer).used = b.used + l.length := by
        show b.size + l.length - b.offset = b.size - b.offset + l.length
        omega
      rw [hused, cellsAt_write hlive, ← hend, cells_fill_end]
  · unfold Buffer.contents
    cases hxd : x.data with
    | none => rfl
    | some a =>
      dsimp only
      by_cases hda : b.data = some a
      · have hlive := hs.exact.live b List.mem_cons_self a hda
        have hle := hx (hxd.trans hda.symm)
        have hxle := (hs.shaped x (List.mem_cons_of_mem _ hm)).offset_le
        have hused : x.used = x.size - x.offset := rfl
        rw [Buffer.writeTail, hda]
        dsimp only
        rw [cellsAt_write hlive, cells_fill_before _ _ (by omega)]
      · rw [(hothers a hda).cells]

/-- Nobody else has the block. -/
def Own (b : Buffer) (rest : List Buffer) : Prop := ∀ a, b.data = some a → owners rest a = 0

/-- Who has a block of its own does not see the bytes. -/
theorem Received.apart {h h' : Heap} {b b' x : Buffer} {rest live : List Buffer} {l : Bytes}
    (hr : Received h b rest l h' b') (hx : Own x (b :: live)) : x.contents h' = x.contents h := by
  unfold Buffer.contents
  cases hd : x.data with
  | none => rfl
  | some a =>
    have hne : b.data ≠ some a := by
      intro hb
      have hno := hx a hd
      rw [owners_cons, if_pos hb] at hno
      omega
    exact congrArg (fun f => cells f x.offset x.used) (hr.others a hne).cells

theorem grown_eq (h : Heap) (b : Buffer) (n : Nat) : b.grown h n = b.appendCapacity h n := by
  unfold Buffer.grown
  split
  · rfl
  · rename_i hfit
    unfold Buffer.appendCapacity
    dsimp only
    rw [if_pos (Nat.le_of_not_lt hfit)]

/-- `Append( data, size )` to a buffer with a block of its own, or none. -/
theorem sound_appendBytes_lt (hs : Sound h (b :: rest)) (hown : Own b rest) (hn : b.used + l.length < 2 ^ 32) :
    ∃ h' b', b.appendBytes h l = (.ok, h', b') ∧ Sound h' (b' :: rest) ∧ Own b' rest ∧ Same h h' rest ∧
      b'.contents h' = b.contents h ++ l ∧ (b.data ≠ none ∨ l ≠ [] → b'.data ≠ none) := by
  obtain ⟨h1, b1, he, hg⟩ := sound_grow_lt hs hn
  have hown1 : Own b1 rest := by
    rcases hg.alone with rfl | hown1
    · exact hown
    · exact hown1
  have hrec := sound_receive hg.sound hg.room
  obtain ⟨hok, hrec⟩ := hrec
  unfold Buffer.appendBytes
  rw [grown_eq, he]
  refine ⟨_, _, Prod.ext hok rfl, hrec.sound, ?_, ?_, ?_, fun hne hnone => ?_⟩
  · rw [hrec.place]
    exact hown1
  · intro a ha
    refine (hg.same a ha).trans (hrec.others a fun hb => ?_)
    rw [hown1 a hb] at ha
    exact absurd ha (Nat.lt_irrefl 0)
  · rw [hrec.contents, hg.contents]
  · rw [hrec.place] at hnone
    have hnone : b1.data = none := hnone
    rcases hne with hne | hne
    · exact hg.block hne hnone
    · have hcap0 : b1.capacity h1 = 0 := by rw [Buffer.capacity, hnone]
      have hroom := hg.room
      have hpos := List.length_pos_iff.mpr hne
      omega

theorem sound_appendBytes (hs : Sound h (b :: rest)) (hown : Own b rest) (hn : b.Affords l.length) :
    ∃ h' b', b.appendBytes h l = (.ok, h', b') ∧ Sound h' (b' :: rest) ∧ Own b' rest ∧ Same h h' rest ∧
      b'.contents h' = b.contents h ++ l ∧ (b.data ≠ none ∨ l ≠ [] → b'.data ≠ none) :=
  sound_appendBytes_lt hs hown (Nat.lt_of_le_of_lt (Nat.le_add_right _ 4) hn)

/-! ## Slices -/

/-- `Offset( n )` within the buffer. -/
theorem offsetBy_within {n : Nat} (h1 : b.offset ≤ b.size) (h2 : b.size < 2 ^ 32) (hn : n ≤ b.used)
    (hlt : n < 2 ^ 31) : b.offsetBy n 0 = ⟨b.data, b.size, b.offset + n⟩ := by
  have hused : b.used = b.size - b.offset := rfl
  have hstart : sizeT (n : Int) = n := by
    unfold sizeT
    omega
  have hzero : sizeT (-0) = 0 := rfl
  unfold Buffer.offsetBy
  dsimp only
  rw [hstart, word_of_lt (show b.offset + n < 2 ^ 64 by omega), if_neg (Int.lt_irrefl 0), hzero]
  by_cases h0 : 0 < b.size
  · simp only [h0, if_true, Nat.sub_zero, Nat.lt_irrefl, if_false]
    rw [if_neg (by omega)]
  · simp only [h0, if_false]
    rw [if_neg (by omega)]

/-- The start is an `int32_t`: below 2^31 it is the position itself. -/
theorem offsetBy_near {n : Nat} (h1 : b.offset ≤ b.size) (h2 : b.size < 2 ^ 32) (hn : n ≤ b.used)
    (hnear : n < 2 ^ 31) : b.offsetBy (int32 n) 0 = ⟨b.data, b.size, b.offset + n⟩ := by
  rw [int32_of_range (by omega) (by omega)]
  exact offsetBy_within h1 h2 hn hnear

/-- From 2^31 on the start is negative as an `int32_t`: `offset_` wraps past `size_`, and nothing is left. -/
theorem offsetBy_far {n : Nat} (h1 : b.offset ≤ b.size) (h2 : b.size < 2 ^ 32) (hn : n ≤ b.used)
    (hfar : 2 ^ 31 ≤ n) : b.offsetBy (int32 n) 0 = ⟨b.data, b.size, b.size⟩ := by
  have hused : b.used = b.size - b.offset := rfl
  have hstart : sizeT (int32 n) = 2 ^ 64 - 2 ^ 32 + n := by
    rw [int32_of_far (by omega) (by omega)]
    unfold sizeT
    omega
  have hzero : sizeT (-0) = 0 := rfl
  unfold Buffer.offsetBy
  dsimp only
  rw [hstart, word_of_lt (show b.offset + (2 ^ 64 - 2 ^ 32 + n) < 2 ^ 64 by omega), if_neg (Int.lt_irrefl 0), hzero,
    if_pos (show 0 < b.size by omega), Nat.sub_zero, if_neg (Nat.lt_irrefl _), if_pos (by omega)]

theorem offsetBy_start {n : Nat} (hb : b.Shaped h) (hcap : b.capacity h < 2 ^ 32) (hn : n ≤ b.used)
    (hlt : n < 2 ^ 31) : b.offsetBy n 0 = ⟨b.data, b.size, b.offset + n⟩ :=
  offsetBy_within hb.offset_le (Nat.lt_of_le_of_lt hb.size_le hcap) hn hlt

/-- `Offset( 0, -k )`. -/
theorem offsetBy_end {k : Nat} (hb : b.Shaped h) (hcap : b.capacity h < 2 ^ 32) (h0 : 0 < k) (hlt : k < 2 ^ 31) :
    b.offsetBy 0 (-k) = ⟨b.data, b.size - k, min b.offset (b.size - k)⟩ := by
  have h1 := hb.offset_le
  have h2 := hb.size_le
  have hstart : sizeT 0 = 0 := rfl
  have hk : sizeT (- -(k : Int)) = k := by
    unfold sizeT
    omega
  unfold Buffer.offsetBy
  dsimp only
  rw [hstart, Nat.add_zero, word_of_lt (show b.offset < 2 ^ 64 by omega),
    if_neg (show ¬ (0 : Int) < -(k : Int) by omega), hk]
  have hsize : (if (if k < b.size then b.size - k else 0) < b.size
      then (if k < b.size then b.size - k else 0) else b.size) = b.size - k := by
    split_ifs <;> omega
  simp only [hsize]
  congr 1
  split_ifs <;> omega

theorem shaped_start {n : Nat} (hb : b.Shaped h) (hn : n ≤ b.used) :
    (⟨b.data, b.size, b.offset + n⟩ : Buffer).Shaped h := by
  have hle := hb.offset_le
  have hused : b.used = b.size - b.offset := rfl
  exact ⟨by show b.offset + n ≤ b.size; omega, hb.size_le⟩

theorem contents_start {n : Nat} (hn : n ≤ b.used) :
    (⟨b.data, b.size, b.offset + n⟩ : Buffer).contents h = (b.contents h).drop n := by
  unfold Buffer.contents
  cases b.data with
  | none => exact (List.drop_nil).symm
  | some a =>
    show cells (h.cellsAt a) (b.offset + n) (b.size - (b.offset + n)) = _
    rw [cells_drop _ _ _ hn, Nat.sub_add_eq]
    rfl

theorem shaped_end {k : Nat} (hb : b.Shaped h) :
    (⟨b.data, b.size - k, min b.offset (b.size - k)⟩ : Buffer).Shaped h :=
  ⟨Nat.min_le_right _ _, Nat.le_trans (Nat.sub_le _ _) hb.size_le⟩

theorem contents_end (hb : b.Shaped h) (k : Nat) :
    (⟨b.data, b.size - k, min b.offset (b.size - k)⟩ : Buffer).contents h = (b.contents h).take (b.used - k) := by
  have hle := hb.offset_le
  have hused : b.used = b.size - b.offset := rfl
  unfold Buffer.contents
  cases b.data with
  | none => exact (List.take_nil).symm
  | some a =>
    show cells (h.cellsAt a) (min b.offset (b.size - k)) (b.size - k - min b.offset (b.size - k)) = _
    rw [cells_take _ _ _ (Nat.sub_le _ _)]
    by_cases hk : b.used < k
    · rw [show b.size - k - min b.offset (b.size - k) = 0 by omega, show b.used - k = 0 by omega]
      rfl
    · rw [show min b.offset (b.size - k) = b.offset by omega, show b.size - k - b.offset = b.used - k by omega]

/-- `Append( buffer, size )` to a null buffer: a share of the block. -/
theorem sound_share (hs : Sound h live) (hm : src ∈ live) (ha : src.data = some a)
    (hroom : owners live a + 1 < 2 ^ 32) {dst : Buffer} (hd : dst.data = none) {n : Nat} (hn : n ≤ src.used) :
    ∃ h' dst', dst.append h src n = (.ok, h', dst') ∧ Sound h' (dst' :: live) ∧ Same h h' live ∧
      dst'.data = some a ∧ dst'.size ≤ src.size ∧
      dst'.contents h' = (src.contents h).take (if n = 0 then src.used else n) := by
  have hshape := hs.shaped src hm
  have hcap : src.capacity h < 2 ^ 32 := by
    obtain ⟨blk, hb⟩ := Option.ne_none_iff_exists'.mp (hs.exact.live src hm a ha)
    rw [Buffer.capacity, ha]
    dsimp only
    rw [Heap.refSize_live hb]
    exact (hs.sane.uint32 a blk hb).2
  have hk : (if n = 0 then src.used else n) ≤ src.used := by
    split <;> omega
  unfold Buffer.append
  rw [if_neg (by omega), hd]
  dsimp only
  generalize (if n = 0 then src.used else n) = k at hk
  have h1 := hshape.offset_le
  have h2 := hshape.size_le
  have hused : src.used = src.size - src.offset := rfl
  rw [word_of_lt (by omega), ha]
  have hnew : (⟨some a, src.offset + k, src.offset⟩ : Buffer).Shaped h := by
    refine ⟨Nat.le_add_right _ _, ?_⟩
    show src.offset + k ≤ h.refSize a
    rw [Buffer.capacity, ha] at h2
    dsimp only at h2
    omega
  obtain ⟨hs', hsame⟩ := sound_acquire hs hnew fun c hc => by
    obtain rfl := Option.some.inj hc
    exact ⟨owners_pos hm ha, hroom⟩
  refine ⟨_, _, rfl, hs', hsame, rfl, ?_, ?_⟩
  · show src.offset + k ≤ src.size
    omega
  · show cells ((h.incrRef a).cellsAt a) src.offset (src.offset + k - src.offset) = _
    rw [(sameAt_incrRef h a a).cells, Nat.add_sub_cancel_left, Buffer.contents, ha]
    exact (cells_take _ _ _ hk).symm

/-- `Clear()`. -/
theorem sound_clear (hs : Sound h (b :: rest)) :
    Sound (b.clear h).1 ((b.clear h).2 :: rest) ∧ Same h (b.clear h).1 rest ∧ Own (b.clear h).2 rest ∧
      (b.clear h).2.contents (b.clear h).1 = [] ∧ ((b.clear h).2 = .null ∨ (b.clear h).2 = ⟨b.data, 0, 0⟩) := by
  unfold Buffer.clear
  cases hd : b.data with
  | none =>
    have hs' := sound_same hs (show Buffer.null.data = b.data from hd.symm) ⟨Nat.le_refl _, Nat.le_refl _⟩
    exact ⟨hs', .refl h rest, fun a ha => (nomatch ha), rfl, Or.inl rfl⟩
  | some a =>
    dsimp only
    split
    · obtain ⟨hs', hsame⟩ := sound_release hs
      rw [hd] at hs' hsame
      exact ⟨sound_null hs', hsame, fun a ha => (nomatch ha), rfl, Or.inl rfl⟩
    · rename_i hcount
      obtain ⟨blk, hb⟩ := Option.ne_none_iff_exists'.mp (hs.exact.live b List.mem_cons_self a hd)
      have hcounts := hs.exact.counts a blk hb
      rw [Heap.refCount_live hb] at hcount
      rw [owners_cons, if_pos hd] at hcounts
      refine ⟨sound_same hs hd.symm ⟨Nat.le_refl _, Nat.zero_le _⟩, .refl h rest, fun c hc => ?_, rfl, Or.inr rfl⟩
      obtain rfl := Option.some.inj hc
      omega

end RedisProxy.Mem
