/-
  RedisProxy.Mem.Scarce — buffers when memory runs out (buffer.cpp, mem_alloc.cpp).

  `Firm` is `Sound` without its word on the allocator. A heap is compared with the one
  whose allocations all succeed (`Heap.given`): an operation that needs no allocation, or gets
  the one it needs, does the same on both; one that does not get it returns `Exhausted` and
  leaves buffer and blocks alone (`appendCapacity_spare`, `appendCapacity_granted`,
  `appendCapacity_refused`).

  A buffer that has its block to itself allocates exactly when its bytes and the new ones are
  more than the block (`asks_iff`).

  Proved: `grown_cases`, `appended_cases`, all that `AppendCapacity` and
  `Append(const char*)` can do.
-/

import RedisProxy.Mem.Contents

namespace RedisProxy.Mem

open Lib.Cells Lib.Decimal Wire

namespace Heap

/-- The same heap, with no allocation refused. -/
def given (h : Heap) : Heap := { h with supply := fun n => some ((h.supply n).getD fun _ => 0) }

/-- An allocation refused. -/
def denied (h : Heap) : Heap := { h with next := h.next + 1 }

variable {h : Heap} {a c : Nat}

theorem given_incrRef (h : Heap) (a : Nat) : (h.incrRef a).given = h.given.incrRef a := by
  unfold incrRef
  rw [show h.given.blocks a = h.blocks a from rfl]
  cases h.blocks a <;> rfl

theorem given_descRef (h : Heap) (a : Nat) : (h.descRef a).given = h.given.descRef a := by
  unfold descRef
  rw [show h.given.blocks a = h.blocks a from rfl]
  cases h.blocks a with
  | none => rfl
  | some b =>
    dsimp only
    split <;> rfl

theorem given_write (h : Heap) (a i : Nat) (l : Bytes) : (h.write a i l).given = h.given.write a i l := by
  unfold write
  rw [show h.given.blocks a = h.blocks a from rfl]
  cases h.blocks a <;> rfl

theorem allocRef_denied (h0 : h.supply h.next = none) (n : Nat) : h.allocRef n = (none, h.denied) := by
  unfold allocRef
  rw [h0]
  rfl

/-- An allocation that is not refused. -/
theorem allocRef_granted (h0 : h.supply h.next ≠ none) (n : Nat) : ∃ h', h.allocRef n = (some h.next, h') ∧
    h.given.allocRef n = (some h.next, h'.given) ∧ h'.next = h.next + 1 ∧ h'.refSize h.next = n % 2 ^ 32 := by
  obtain ⟨junk, hj⟩ := Option.ne_none_iff_exists'.mp h0
  have hg : h.given.supply h.given.next = some junk := by
    show some ((h.supply h.next).getD _) = some junk
    rw [hj]
    rfl
  unfold allocRef
  rw [hj, hg]
  exact ⟨_, rfl, rfl, rfl, refSize_put (h := h) (a := h.next) ⟨n % 2 ^ 32, 1, junk⟩⟩

@[simp] theorem next_incrRef (h : Heap) (a : Nat) : (h.incrRef a).next = h.next := by
  unfold incrRef
  cases h.blocks a <;> rfl

@[simp] theorem next_descRef (h : Heap) (a : Nat) : (h.descRef a).next = h.next := by
  unfold descRef
  cases h.blocks a with
  | none => rfl
  | some b =>
    dsimp only
    split <;> rfl

@[simp] theorem next_write (h : Heap) (a i : Nat) (l : Bytes) : (h.write a i l).next = h.next := by
  unfold write
  cases h.blocks a <;> rfl

theorem refSize_descRef (hne : c ≠ a) : (h.descRef a).refSize c = h.refSize c := (sameAt_descRef hne).size

end Heap

/-! ## What stays as it is -/

variable {h h' : Heap} {live rest : List Buffer} {a n : Nat} {b b' : Buffer} {l : Bytes}

theorem given_release (h : Heap) (d : Option Nat) : (h.release d).given = h.given.release d := by
  cases d with
  | none => rfl
  | some a => exact Heap.given_descRef h a

theorem given_acquire (h : Heap) (d : Option Nat) : (h.acquire d).given = h.given.acquire d := by
  cases d with
  | none => rfl
  | some a => exact Heap.given_incrRef h a

@[simp] theorem next_release (h : Heap) (d : Option Nat) : (h.release d).next = h.next := by
  cases d with
  | none => rfl
  | some a => exact Heap.next_descRef h a

@[simp] theorem next_acquire (h : Heap) (d : Option Nat) : (h.acquire d).next = h.next := by
  cases d with
  | none => rfl
  | some a => exact Heap.next_incrRef h a

@[simp] theorem next_incr (h : Heap) (d : Option Nat) : (h.incr d).next = h.next := by
  cases d with
  | none => rfl
  | some a => exact Heap.next_incrRef h a

/-- A write to a buffer's tail changes no size, and asks for nothing. -/
structure Wrote (h h' : Heap) : Prop where
  supply : h'.supply = h.supply
  next : h'.next = h.next
  size : ∀ c, h'.refSize c = h.refSize c

theorem wrote_tail (h : Heap) (b : Buffer) (l : Bytes) : Wrote h (b.writeTail h l) := by
  unfold Buffer.writeTail
  cases b.data with
  | none => exact ⟨rfl, rfl, fun _ => rfl⟩
  | some a => exact ⟨supply_write h a b.size l, Heap.next_write h a b.size l, fun c => refSize_write h a c b.size l⟩

theorem given_writeTail (h : Heap) (b : Buffer) (l : Bytes) : (b.writeTail h l).given = b.writeTail h.given l := by
  unfold Buffer.writeTail
  cases b.data with
  | none => rfl
  | some a => exact Heap.given_write h a b.size l

/-! ## Firm -/

structure Firm (h : Heap) (live : List Buffer) : Prop where
  sane : h.Sane
  exact : Exact h live
  shaped : ∀ b ∈ live, b.Shaped h

theorem Firm.given (hf : Firm h live) : Sound h.given live :=
  ⟨⟨hf.sane.unused, hf.sane.uint32⟩, ⟨hf.exact.counts, hf.exact.live, hf.exact.strays⟩,
    fun b hm => ⟨(hf.shaped b hm).offset_le, (hf.shaped b hm).size_le⟩, fun _ => Option.some_ne_none _⟩

theorem firm_given (hs : Sound h.given live) : Firm h live :=
  ⟨⟨hs.sane.unused, hs.sane.uint32⟩, ⟨hs.exact.counts, hs.exact.live, hs.exact.strays⟩,
    fun b hm => ⟨(hs.shaped b hm).offset_le, (hs.shaped b hm).size_le⟩⟩

theorem Sound.firm (hs : Sound h live) : Firm h live := ⟨hs.sane, hs.exact, hs.shaped⟩

theorem same_given (hs : Same h.given h'.given live) : Same h h' live :=
  fun a ha => ⟨(hs a ha).cells, (hs a ha).size⟩

theorem Firm.denied (hf : Firm h live) : Firm h.denied live :=
  ⟨⟨fun a ha => hf.sane.unused a (Nat.le_of_succ_le ha), hf.sane.uint32⟩,
    ⟨hf.exact.counts, hf.exact.live, hf.exact.strays⟩,
    fun b hm => ⟨(hf.shaped b hm).offset_le, (hf.shaped b hm).size_le⟩⟩

theorem same_denied (h : Heap) (live : List Buffer) : Same h h.denied live := fun _ _ => ⟨rfl, rfl⟩

theorem firm_swap (hf : Firm h (b :: b' :: rest)) : Firm h (b' :: b :: rest) := firm_given (sound_swap hf.given)

/-- Any of the buffers may stand first. -/
theorem firm_front (hf : Firm h live) (hm : b ∈ live) : Firm h (b :: live.erase b) :=
  firm_given (sound_perm (List.perm_cons_erase hm) hf.given)

theorem firm_null (hf : Firm h live) : Firm h (.null :: live) := firm_given (sound_null hf.given)

theorem firm_release (hf : Firm h (b :: rest)) :
    Firm (h.release b.data) rest ∧ Same h (h.release b.data) rest := by
  obtain ⟨hs, hsame⟩ := sound_release hf.given
  rw [← given_release] at hs hsame
  exact ⟨firm_given hs, same_given hsame⟩

theorem firm_contents (hf : Firm h (b :: rest)) : (b.contents h).length = b.used :=
  show (b.contents h.given).length = b.used from length_contents hf.given

theorem firm_capacity (hf : Firm h (b :: rest)) : b.capacity h < 2 ^ 32 :=
  show b.capacity h.given < 2 ^ 32 from capacity_lt hf.given

/-! ## AppendCapacity -/

/-- `AppendCapacity( n )` allocates. -/
def Buffer.Asks (h : Heap) (b : Buffer) (n : Nat) : Prop :=
  b.capacity h < word (n + b.size) ∧
    ∀ a, b.data = some a → ¬ (h.refCount a = 1 ∧ word (n + b.size) - b.capacity h ≤ b.offset)

theorem appendCapacity_spare (hn : ¬ b.Asks h n) : ∃ h' b', b.appendCapacity h n = (.ok, h', b') ∧
    b.appendCapacity h.given n = (.ok, h'.given, b') ∧ h'.next = h.next ∧ h'.supply = h.supply ∧
    b'.capacity h' = b.capacity h := by
  unfold Buffer.appendCapacity
  rw [show b.capacity h.given = b.capacity h from rfl]
  dsimp only
  by_cases hfit : word (n + b.size) ≤ b.capacity h
  · rw [if_pos hfit, if_pos hfit]
    exact ⟨h, b, rfl, rfl, rfl, rfl, rfl⟩
  rw [if_neg hfit, if_neg hfit]
  cases hd : b.data with
  | none => exact absurd ⟨Nat.lt_of_not_le hfit, fun a ha => by rw [hd] at ha; cases ha⟩ hn
  | some a =>
    have hplace : h.refCount a = 1 ∧ word (n + b.size) - b.capacity h ≤ b.offset := by
      by_contra hno
      refine hn ⟨Nat.lt_of_not_le hfit, fun c hc => ?_⟩
      rw [hd] at hc
      obtain rfl := Option.some.inj hc
      exact hno
    dsimp only
    rw [if_pos hplace, if_pos (show h.given.refCount a = 1 ∧ _ from hplace)]
    refine ⟨_, _, rfl, ?_, Heap.next_write _ _ _ _, supply_write _ _ _ _, ?_⟩
    · rw [Heap.given_write]
      rfl
    · show (h.write a 0 (b.contents h)).refSize a = b.capacity h
      rw [refSize_write, Buffer.capacity, hd]

theorem appendCapacity_refused (hn : b.Asks h n) (h0 : h.supply h.next = none) :
    b.appendCapacity h n = (.exhausted, h.denied, b) := by
  obtain ⟨hlt, hplace⟩ := hn
  unfold Buffer.appendCapacity
  dsimp only
  rw [if_neg (Nat.not_le_of_lt hlt)]
  cases hd : b.data with
  | none =>
    dsimp only
    rw [Heap.allocRef_denied h0]
  | some a =>
    dsimp only
    rw [if_neg (hplace a hd), Heap.allocRef_denied h0]

theorem appendCapacity_granted (hn : b.Asks h n) (h0 : h.supply h.next ≠ none) : ∃ h' b',
    b.appendCapacity h n = (.ok, h', b') ∧ b.appendCapacity h.given n = (.ok, h'.given, b') ∧
    h'.next = h.next + 1 ∧ h'.supply = h.supply ∧ b' = ⟨some h.next, if b.data = none then 0 else b.used, 0⟩ ∧
    (b.data ≠ some h.next → b'.capacity h' =
      (if b.data = none then word (n + b.size) else word (word (n + b.size) + 2 ^ 64 - b.offset)) % 2 ^ 32) := by
  obtain ⟨hlt, hplace⟩ := hn
  unfold Buffer.appendCapacity
  rw [show b.capacity h.given = b.capacity h from rfl]
  dsimp only
  rw [if_neg (Nat.not_le_of_lt hlt), if_neg (Nat.not_le_of_lt hlt)]
  cases hd : b.data with
  | none =>
    obtain ⟨h', he, hg, hnext, hsize⟩ := Heap.allocRef_granted h0 (word (n + b.size))
    dsimp only
    rw [he, hg]
    refine ⟨h', _, rfl, rfl, hnext, ?_, by rw [if_pos rfl], fun _ => hsize⟩
    rw [← supply_allocRef h (word (n + b.size)), he]
  | some a =>
    obtain ⟨h', he, hg, hnext, hsize⟩ :=
      Heap.allocRef_granted h0 (word (word (n + b.size) + 2 ^ 64 - b.offset))
    dsimp only
    rw [if_neg (hplace a hd), if_neg (show ¬ (h.given.refCount a = 1 ∧ _) from hplace a hd), he, hg]
    refine ⟨_, _, rfl, ?_, ?_, ?_, by rw [if_neg (Option.some_ne_none a)], fun hne => ?_⟩
    · rw [Heap.given_descRef, Heap.given_write]
      rfl
    · rw [Heap.next_descRef, Heap.next_write, hnext]
    · rw [supply_descRef, supply_write, ← supply_allocRef h (word (word (n + b.size) + 2 ^ 64 - b.offset)), he]
    · show ((h'.write h.next 0 (b.contents h')).descRef a).refSize h.next = _
      rw [Heap.refSize_descRef fun e => hne (by rw [e]), refSize_write, hsize, if_neg (Option.some_ne_none a)]

/-- A block of its own is moved in when that is enough. -/
theorem asks_iff (hf : Firm h (b :: rest)) (hown : Own b rest) (hlt : n < 2 ^ 32) :
    b.Asks h n ↔ b.capacity h < b.used + n := by
  obtain ⟨h1, h2⟩ := hf.shaped b List.mem_cons_self
  have hcap := firm_capacity hf
  have hused : b.used = b.size - b.offset := rfl
  unfold Buffer.Asks
  rw [word_of_lt (show n + b.size < 2 ^ 64 by omega)]
  constructor
  · rintro ⟨hneed, hplace⟩
    cases hd : b.data with
    | none =>
      have h0 : b.capacity h = 0 := by rw [Buffer.capacity, hd]
      omega
    | some a =>
      obtain ⟨blk, hb⟩ := Option.ne_none_iff_exists'.mp (hf.exact.live b List.mem_cons_self a hd)
      have hcount : h.refCount a = 1 := by
        rw [Heap.refCount_live hb, hf.exact.counts a blk hb, owners_cons, if_pos hd, hown a hd]
      have hno : ¬ n + b.size - b.capacity h ≤ b.offset := fun hle => hplace a hd ⟨hcount, hle⟩
      omega
  · intro hneed
    refine ⟨by omega, fun a _ hplace => ?_⟩
    have hle := hplace.2
    omega

/-- What `AppendCapacity( n )` leaves where it is not refused. -/
structure Regrown (h : Heap) (b : Buffer) (rest : List Buffer) (n : Nat) (h' : Heap) (b' : Buffer) : Prop where
  grown : Grown h.given b rest n h'.given b'
  supply : h'.supply = h.supply
  next : h'.next = h.next + if b.capacity h < b.used + n then 1 else 0
  capacity : b'.capacity h' = max (b.capacity h) (b.used + n)

theorem grown_cases (hf : Firm h (b :: rest)) (hown : Own b rest) (hlt : b.used + n < 2 ^ 32) :
    (b.capacity h < b.used + n ∧ h.supply h.next = none ∧ b.appendCapacity h n = (.exhausted, h.denied, b)) ∨
    ((b.capacity h < b.used + n → h.supply h.next ≠ none) ∧ ∃ h' b', b.appendCapacity h n = (.ok, h', b') ∧
      b.appendCapacity h.given n = (.ok, h'.given, b') ∧ Regrown h b rest n h' b') := by
  obtain ⟨h1, h2⟩ := hf.shaped b List.mem_cons_self
  have hcap := firm_capacity hf
  have hused : b.used = b.size - b.offset := rfl
  have hasks := asks_iff (n := n) hf hown (by omega)
  obtain ⟨hg, bg, heg, hgrown⟩ := sound_grow_lt hf.given hlt
  by_cases hneed : b.capacity h < b.used + n
  · by_cases h0 : h.supply h.next = none
    · exact Or.inl ⟨hneed, h0, appendCapacity_refused (hasks.mpr hneed) h0⟩
    · obtain ⟨h', b', he, he', hnext, hsupply, _, hsize⟩ := appendCapacity_granted (hasks.mpr hneed) h0
      rw [he'] at heg
      cases heg
      refine Or.inr ⟨fun _ => h0, h', bg, he, he', hgrown, hsupply, ?_, ?_⟩
      · rw [if_pos hneed, hnext]
      · have hnew : b.data ≠ some h.next := fun hd =>
          hf.exact.live b List.mem_cons_self h.next hd (hf.sane.unused _ (Nat.le_refl _))
        rw [hsize hnew, Nat.max_eq_right (Nat.le_of_lt hneed), word_of_lt (show n + b.size < 2 ^ 64 by omega)]
        cases hd : b.data with
        | none =>
          have hcap0 : b.capacity h = 0 := by rw [Buffer.capacity, hd]
          rw [if_pos rfl, Nat.mod_eq_of_lt (by omega)]
          omega
        | some a =>
          rw [if_neg (Option.some_ne_none a), word_less (by omega) (by omega), Nat.mod_eq_of_lt (by omega)]
          omega
  · obtain ⟨h', b', he, he', hnext, hsupply, hsize⟩ := appendCapacity_spare (fun hn => hneed (hasks.mp hn))
    rw [he'] at heg
    cases heg
    refine Or.inr ⟨fun hn => absurd hn hneed, h', bg, he, he', hgrown, hsupply, ?_, ?_⟩
    · rw [if_neg hneed, hnext]
      rfl
    · rw [hsize, Nat.max_eq_left (Nat.le_of_not_lt hneed)]

/-! ## Append( data, size ) -/

/-- What `Append( data, size )` leaves where it is not refused. -/
structure Appended (h : Heap) (b : Buffer) (rest : List Buffer) (l : Bytes) (h' : Heap) (b' : Buffer) : Prop where
  firm : Firm h' (b' :: rest)
  own : Own b' rest
  same : Same h h' rest
  contents : b'.contents h' = b.contents h ++ l
  supply : h'.supply = h.supply
  next : h'.next = h.next + if b.capacity h < b.used + l.length then 1 else 0
  capacity : b'.capacity h' = max (b.capacity h) (b.used + l.length)

theorem Appended.used (hf : Firm h (b :: rest)) (ha : Appended h b rest l h' b') : b'.used = b.used + l.length := by
  rw [← firm_contents ha.firm, ha.contents, List.length_append, firm_contents hf]

theorem appended_cases (hf : Firm h (b :: rest)) (hown : Own b rest) (hlt : b.used + l.length < 2 ^ 32) :
    (b.capacity h < b.used + l.length ∧ h.supply h.next = none ∧ b.appendBytes h l = (.exhausted, h.denied, b)) ∨
    ((b.capacity h < b.used + l.length → h.supply h.next ≠ none) ∧ ∃ h' b', b.appendBytes h l = (.ok, h', b') ∧
      Appended h b rest l h' b') := by
  rcases grown_cases hf hown hlt with ⟨hneed, h0, he⟩ | ⟨hgiven, h1, b1, he, he', hg⟩
  · left
    refine ⟨hneed, h0, ?_⟩
    unfold Buffer.appendBytes
    rw [grown_eq, he]
  · right
    refine ⟨hgiven, ?_⟩
    obtain ⟨hG, bG, heG, hs, hownG, hsame, hc, _⟩ := sound_appendBytes_lt hf.given hown hlt
    have hw := wrote_tail h1 b1 l
    unfold Buffer.appendBytes at heG
    rw [grown_eq, he'] at heG
    dsimp only at heG
    rw [← given_writeTail] at heG
    simp only [Prod.mk.injEq] at heG
    obtain ⟨hok, rfl, rfl⟩ := heG
    unfold Buffer.appendBytes
    rw [grown_eq, he]
    refine ⟨_, _, Prod.ext hok rfl, firm_given hs, hownG, same_given hsame, hc, hw.supply.trans hg.supply,
      hw.next.trans hg.next, ?_⟩
    have hdata : ((b1.appendSize (b1.writeTail h1 l) l.length).2).data = b1.data := appendSize_data _ b1 l.length
    rw [← hg.capacity]
    show Buffer.capacity (b1.writeTail h1 l) (b1.appendSize (b1.writeTail h1 l) l.length).2 = _
    unfold Buffer.capacity
    rw [hdata]
    cases b1.data with
    | none => rfl
    | some c => exact hw.size c

/-- More bytes than a block can have. -/
theorem appendBytes_far (hf : Firm h (b :: rest)) (hl : l.length < 2 ^ 32) (hfar : 2 ^ 32 ≤ b.used + l.length) :
    (b.appendBytes h l).1 ≠ .ok := by
  obtain ⟨h1, h2⟩ := hf.shaped b List.mem_cons_self
  have hcap := firm_capacity hf
  have hused : b.used = b.size - b.offset := rfl
  have hasks : b.Asks h l.length := by
    unfold Buffer.Asks
    rw [word_of_lt (show l.length + b.size < 2 ^ 64 by omega)]
    refine ⟨by omega, fun a _ hplace => ?_⟩
    have hle := hplace.2
    omega
  unfold Buffer.appendBytes
  rw [grown_eq]
  by_cases h0 : h.supply h.next = none
  · rw [appendCapacity_refused hasks h0]
    exact Error.noConfusion
  · obtain ⟨h', b', he, _, _, _, rfl, hsize⟩ := appendCapacity_granted hasks h0
    have hnew : b.data ≠ some h.next := fun hd =>
      hf.exact.live b List.mem_cons_self h.next hd (hf.sane.unused _ (Nat.le_refl _))
    have hsize := hsize hnew
    rw [he]
    dsimp only
    cases hd : b.data with
    | none =>
      have h0 : b.capacity h = 0 := by rw [Buffer.capacity, hd]
      omega
    | some a =>
      rw [hd, if_neg (Option.some_ne_none a)] at hsize
      rw [if_neg (Option.some_ne_none a)]
      have hlt : Buffer.capacity ((⟨some h.next, b.used, 0⟩ : Buffer).writeTail h' l) ⟨some h.next, b.used, 0⟩ <
          2 ^ 32 := by
        show (h'.write h.next b.used l).refSize h.next < 2 ^ 32
        rw [refSize_write, show h'.refSize h.next = _ from hsize]
        exact Nat.mod_lt _ (by norm_num)
      unfold Buffer.appendSize
      rw [word_of_lt (show b.used + l.length < 2 ^ 64 by omega), if_pos (by omega)]
      exact Error.noConfusion

theorem appended_of_ok (hf : Firm h (b :: rest)) (hown : Own b rest) (hl : l.length < 2 ^ 32)
    (he : b.appendBytes h l = (.ok, h', b')) : Appended h b rest l h' b' := by
  have hlt : b.used + l.length < 2 ^ 32 := by
    by_contra hfar
    exact appendBytes_far hf hl (Nat.le_of_not_lt hfar) (by rw [he])
  rcases appended_cases hf hown hlt with ⟨_, _, hno⟩ | ⟨_, h1, b1, hok, ha⟩
  · rw [hno] at he
    cases he
  · rw [hok] at he
    cases he
    exact ha

/-! ## One append after another -/

/-- `Append( data, size )` of each, up to the first that fails. -/
def Buffer.appendAll (h : Heap) (b : Buffer) : List Bytes → Error × Heap × Buffer
  | [] => (.ok, h, b)
  | l :: ls =>
    match b.appendBytes h l with
    | (.ok, h, b) => appendAll h b ls
    | r => r

/-- The allocations they ask for: each that does not fit gets a block of just its size. -/
def growths (capacity used : Nat) : List Bytes → Nat
  | [] => 0
  | l :: ls =>
    (if capacity < used + l.length then 1 else 0) + growths (max capacity (used + l.length)) (used + l.length) ls

/-- The next `n` allocations succeed. -/
def Heap.Grants (h : Heap) (n : Nat) : Prop := ∀ i < n, h.supply (h.next + i) ≠ none

instance (h : Heap) (n : Nat) : Decidable (h.Grants n) := inferInstanceAs (Decidable (∀ i < n, _))

theorem grants_add {m : Nat} (hs : h'.supply = h.supply) (hn : h'.next = h.next + m) :
    h.Grants (m + n) ↔ h.Grants m ∧ h'.Grants n := by
  unfold Heap.Grants
  rw [hs, hn]
  constructor
  · intro hg
    refine ⟨fun i hi => hg i (by omega), fun i hi => ?_⟩
    rw [Nat.add_assoc]
    exact hg (m + i) (by omega)
  · rintro ⟨h1, h2⟩ i hi
    by_cases him : i < m
    · exact h1 i him
    · have hlast := h2 (i - m) (by omega)
      rwa [show h.next + m + (i - m) = h.next + i by omega] at hlast

theorem grants_mono {m : Nat} (hg : h.Grants n) (hle : m ≤ n) : h.Grants m :=
  fun i hi => hg i (Nat.lt_of_lt_of_le hi hle)

/-- The one allocation that is needed if `p` is. -/
theorem grants_one {p : Prop} [Decidable p] : h.Grants (if p then 1 else 0) ↔ (p → h.supply h.next ≠ none) := by
  unfold Heap.Grants
  constructor
  · intro hg hp
    exact hg 0 (by rw [if_pos hp]; exact Nat.zero_lt_one)
  · intro hg i hi
    split at hi
    · rename_i hp
      obtain rfl : i = 0 := by omega
      exact hg hp
    · omega

/-- What the appends leave where none is refused. -/
structure Filled (h : Heap) (b : Buffer) (rest : List Buffer) (ls : List Bytes) (h' : Heap) (b' : Buffer) : Prop where
  firm : Firm h' (b' :: rest)
  own : Own b' rest
  same : Same h h' rest
  contents : b'.contents h' = b.contents h ++ ls.flatten
  supply : h'.supply = h.supply
  next : h'.next = h.next + growths (b.capacity h) b.used ls

/-- They all succeed exactly when every allocation does that they ask for, and a `uint32_t` holds
    the size. -/
theorem appendAll_spec (ls : List Bytes) : ∀ (h : Heap) (b : Buffer), Firm h (b :: rest) → Own b rest →
    (∀ l ∈ ls, l.length < 2 ^ 32) →
    (h.Grants (growths (b.capacity h) b.used ls) ∧ b.used + ls.flatten.length < 2 ^ 32 ∧
      ∃ h' b', b.appendAll h ls = (.ok, h', b') ∧ Filled h b rest ls h' b') ∨
    (¬ (h.Grants (growths (b.capacity h) b.used ls) ∧ b.used + ls.flatten.length < 2 ^ 32) ∧
      (b.appendAll h ls).1 ≠ .ok) := by
  induction ls with
  | nil =>
    intro h b hf hown _
    have hshape := hf.shaped b List.mem_cons_self
    have hcap := firm_capacity hf
    have hsize := hshape.size_le
    have hused : b.used = b.size - b.offset := rfl
    refine Or.inl ⟨fun i hi => absurd hi (Nat.not_lt_zero i), ?_, h, b, rfl, hf, hown, .refl h rest, ?_, rfl, rfl⟩
    · show b.used + 0 < 2 ^ 32
      omega
    · rw [List.flatten_nil, List.append_nil]
  | cons l ls ih =>
    intro h b hf hown hl
    have hlen : (l :: ls).flatten.length = l.length + ls.flatten.length := by
      rw [List.flatten_cons, List.length_append]
    unfold Buffer.appendAll growths
    rw [hlen]
    by_cases hlt : b.used + l.length < 2 ^ 32
    · rcases appended_cases hf hown hlt with ⟨hneed, h0, he⟩ | ⟨hgiven, h1, b1, he, ha⟩
      · -- refused: the first allocation asked for
        right
        refine ⟨fun hcond => hcond.1 0 ?_ h0, ?_⟩
        · rw [if_pos hneed]
          omega
        · rw [he]
          exact Error.noConfusion
      · have hused := ha.used hf
        have hgrants := grants_add (n := growths (b1.capacity h1) b1.used ls) ha.supply ha.next
        rw [grants_one, ha.capacity, hused] at hgrants
        rw [he, hgrants, ← Nat.add_assoc]
        rcases ih h1 b1 ha.firm ha.own (fun x hx => hl x (List.mem_cons_of_mem l hx)) with
          ⟨hg, hsum, h', b', he', hfill⟩ | ⟨hno, herr⟩
        · left
          rw [ha.capacity, hused] at hg
          rw [hused] at hsum
          refine ⟨⟨hgiven, hg⟩, hsum, h', b', he', hfill.firm, hfill.own, ha.same.trans hfill.same, ?_,
            hfill.supply.trans ha.supply, ?_⟩
          · rw [hfill.contents, ha.contents, List.flatten_cons, List.append_assoc]
          · rw [hfill.next, ha.next, ha.capacity, hused, Nat.add_assoc]
            rfl
        · right
          rw [ha.capacity, hused] at hno
          exact ⟨fun hcond => hno ⟨hcond.1.2, hcond.2⟩, herr⟩
    · right
      have hfar := appendBytes_far hf (hl l List.mem_cons_self) (Nat.le_of_not_lt hlt)
      refine ⟨fun hcond => ?_, ?_⟩
      · have hsum := hcond.2
        omega
      · rcases he : b.appendBytes h l with ⟨e, h', b'⟩
        rw [he] at hfar
        cases e with
        | ok => exact absurd rfl hfar
        | _ => exact Error.noConfusion

theorem filled_of_ok {ls : List Bytes} (hf : Firm h (b :: rest)) (hown : Own b rest) (hl : ∀ l ∈ ls, l.length < 2 ^ 32)
    (he : b.appendAll h ls = (.ok, h', b')) : Filled h b rest ls h' b' := by
  rcases appendAll_spec ls h b hf hown hl with ⟨_, _, h1, b1, hok, hfill⟩ | ⟨_, hno⟩
  · rw [hok] at he
    cases he
    exact hfill
  · rw [he] at hno
    exact absurd rfl hno

theorem appendAll_append (ls ls' : List Bytes) : ∀ (h : Heap) (b : Buffer), b.appendAll h (ls ++ ls') =
    match b.appendAll h ls with
    | (.ok, h, b) => b.appendAll h ls'
    | r => r := by
  induction ls with
  | nil => intro h b; rfl
  | cons l ls ih =>
    intro h b
    rw [List.cons_append, Buffer.appendAll, Buffer.appendAll]
    rcases b.appendBytes h l with ⟨e, h1, b1⟩
    cases e with
    | ok => exact ih h1 b1
    | _ => rfl

end RedisProxy.Mem
