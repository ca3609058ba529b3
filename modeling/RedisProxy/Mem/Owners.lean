/-
  RedisProxy.Mem.Owners — reference counts against the buffers there are.

  `Exact` is about a heap and the buffers that live: each block's count is the number of
  buffers that point to it, no buffer points to a freed block, and no call went astray.
  Every operation is made of four moves: a reference dropped (`exact_release`), taken
  (`exact_acquire`), a block allocated (`exact_allocRef`) and written (`exact_write`).

  Proved: what `AppendCapacity`, `Append(const char*)` and `Clear` keep (`exact_grow`,
  `exact_appendBytes`, `exact_clear`), and when an assignment (`exact_assign_iff`) and
  `Append(const Buffer&)` (`exact_append_iff`) do.
-/

import RedisProxy.Lib.Runs
import RedisProxy.Mem.Buffer
import Mathlib.Data.List.Perm.Basic

namespace RedisProxy.Mem

open Lib Lib.Cells Lib.Decimal Wire

def owners (live : List Buffer) (a : Nat) : Nat := live.countP fun b => b.data == some a

structure Exact (h : Heap) (live : List Buffer) : Prop where
  counts : ∀ a b, h.blocks a = some b → b.count = owners live a
  live : ∀ b ∈ live, ∀ a, b.data = some a → h.blocks a ≠ none
  strays : h.strays = 0

variable {h : Heap} {live rest : List Buffer} {a c : Nat} {b : Buffer}

/-! ## Owners -/

theorem owners_cons (b : Buffer) (live : List Buffer) (a : Nat) :
    owners (b :: live) a = owners live a + if b.data = some a then 1 else 0 := by
  simp [owners, List.countP_cons]

theorem owners_perm {live' : List Buffer} (hp : live.Perm live') (a : Nat) : owners live a = owners live' a :=
  hp.countP_eq _

theorem owners_pos (hb : b ∈ live) (ha : b.data = some a) : 0 < owners live a :=
  List.countP_pos_iff.mpr ⟨b, hb, by simpa using ha⟩

theorem exact_perm {live' : List Buffer} (hp : live.Perm live') (hx : Exact h live) : Exact h live' :=
  ⟨fun a b hb => (hx.counts a b hb).trans (owners_perm hp a), fun b hb => hx.live b (hp.mem_iff.mpr hb), hx.strays⟩

/-- A buffer that points to the same block counts the same. -/
theorem exact_same {b' : Buffer} (hd : b'.data = b.data) : Exact h (b' :: live) ↔ Exact h (b :: live) := by
  have hown : ∀ a, owners (b' :: live) a = owners (b :: live) a := by
    intro a
    rw [owners_cons, owners_cons, hd]
  constructor
  · intro hx
    refine ⟨fun a blk hb => (hx.counts a blk hb).trans (hown a), fun x hm a ha => ?_, hx.strays⟩
    rcases List.mem_cons.mp hm with rfl | hm
    · exact hx.live b' List.mem_cons_self a (hd.trans ha)
    · exact hx.live x (List.mem_cons_of_mem _ hm) a ha
  · intro hx
    refine ⟨fun a blk hb => (hx.counts a blk hb).trans (hown a).symm, fun x hm a ha => ?_, hx.strays⟩
    rcases List.mem_cons.mp hm with rfl | hm
    · exact hx.live b List.mem_cons_self a (hd.symm.trans ha)
    · exact hx.live x (List.mem_cons_of_mem _ hm) a ha

/-- A buffer that points nowhere does not count. -/
theorem exact_null (hd : b.data = none) : Exact h (b :: live) ↔ Exact h live := by
  have hown : ∀ a, owners (b :: live) a = owners live a := by
    intro a
    rw [owners_cons, hd]
    simp
  constructor
  · intro hx
    exact ⟨fun a blk hb => (hx.counts a blk hb).trans (hown a),
      fun x hm => hx.live x (List.mem_cons_of_mem _ hm), hx.strays⟩
  · intro hx
    refine ⟨fun a blk hb => (hx.counts a blk hb).trans (hown a).symm, fun x hm a ha => ?_, hx.strays⟩
    rcases List.mem_cons.mp hm with rfl | hm
    · rw [hd] at ha
      cases ha
    · exact hx.live x hm a ha

theorem live_of_owners (hx : Exact h live) (hpos : 0 < owners live a) : h.blocks a ≠ none := by
  obtain ⟨b, hm, ha⟩ := List.countP_pos_iff.mp hpos
  exact hx.live b hm a (by simpa using ha)

theorem owners_lt (hs : h.Sane) (hx : Exact h live) (a : Nat) : owners live a < 2 ^ 32 := by
  by_cases h0 : owners live a = 0
  · rw [h0]
    norm_num
  · obtain ⟨blk, hb⟩ := Option.ne_none_iff_exists'.mp (live_of_owners hx (Nat.pos_of_ne_zero h0))
    rw [← hx.counts a blk hb]
    exact (hs.uint32 a blk hb).1

/-- Nobody has the block that is given out next. -/
theorem owners_next (hs : h.Sane) (hx : Exact h live) : owners live h.next = 0 := by
  by_contra hpos
  exact live_of_owners hx (Nat.pos_of_ne_zero hpos) (hs.unused _ (Nat.le_refl _))

/-! ## The four moves -/

theorem owners_others (hb : b.data = some a) (hca : c ≠ a) : owners (b :: live) c = owners live c := by
  rw [owners_cons, hb, if_neg (fun he => hca (Option.some.inj he).symm), Nat.add_zero]

/-- A block changed, and who has it; the others stay with theirs. -/
theorem exact_put {live' : List Buffer} {blk : Block} (hx : Exact h live) (hn : blk.count = owners live' a)
    (hother : ∀ c, c ≠ a → owners live' c = owners live c) : Exact (h.put a (some blk)) live' := by
  refine ⟨fun c blk' hc => ?_, fun x hm c hxc => ?_, hx.strays⟩
  · by_cases hca : c = a
    · subst hca
      rw [Heap.put_same] at hc
      obtain rfl := Option.some.inj hc
      exact hn
    · rw [Heap.put_ne _ hca] at hc
      exact (hx.counts c blk' hc).trans (hother c hca).symm
  · by_cases hca : c = a
    · subst hca
      rw [Heap.put_same]
      exact Option.some_ne_none _
    · rw [Heap.put_ne _ hca]
      have hpos := owners_pos hm hxc
      rw [hother c hca] at hpos
      exact live_of_owners hx hpos

/-- The reference of a buffer dropped. -/
theorem exact_release (hs : h.Sane) (hx : Exact h (b :: live)) : Exact (h.release b.data) live := by
  cases hd : b.data with
  | none => exact (exact_null hd).mp hx
  | some a =>
    have hne := hx.live b List.mem_cons_self a hd
    obtain ⟨blk, hb⟩ := Option.ne_none_iff_exists'.mp hne
    have hcount := hx.counts a blk hb
    have hbound := owners_lt hs hx a
    rw [owners_cons, if_pos hd] at hcount hbound
    show Exact (h.descRef a) live
    by_cases h0 : owners live a = 0
    · rw [Heap.descRef_last hb (by omega)]
      refine ⟨fun c blk' hc => ?_, fun x hm c hxc => ?_, hx.strays⟩
      · by_cases hca : c = a
        · subst hca
          rw [Heap.put_same] at hc
          cases hc
        · rw [Heap.put_ne _ hca] at hc
          exact (hx.counts c blk' hc).trans (owners_others hd hca)
      · have hca : c ≠ a := by
          rintro rfl
          have := owners_pos hm hxc
          omega
        rw [Heap.put_ne _ hca]
        exact hx.live x (List.mem_cons_of_mem _ hm) c hxc
    · rw [Heap.descRef_shared hb (by omega) (by omega)]
      refine exact_put hx ?_ fun c hca => (owners_others hd hca).symm
      show blk.count - 1 = _
      omega

/-- A reference to a live block taken. -/
theorem exact_acquire (hx : Exact h live)
    (hd : ∀ a, b.data = some a → h.blocks a ≠ none ∧ owners live a + 1 < 2 ^ 32) :
    Exact (h.acquire b.data) (b :: live) := by
  cases hb : b.data with
  | none => exact (exact_null hb).mpr hx
  | some a =>
    obtain ⟨hne, hbound⟩ := hd a hb
    obtain ⟨blk, hblk⟩ := Option.ne_none_iff_exists'.mp hne
    have hcount := hx.counts a blk hblk
    show Exact (h.incrRef a) (b :: live)
    rw [Heap.incrRef_live hblk]
    refine exact_put hx ?_ fun c hca => owners_others hb hca
    rw [owners_cons, if_pos hb, ← hcount]
    exact Nat.mod_eq_of_lt (by omega)

theorem exact_write (hx : Exact h live) (ha : h.blocks a ≠ none) (i : Nat) (l : Bytes) :
    Exact (h.write a i l) live := by
  obtain ⟨blk, hb⟩ := Option.ne_none_iff_exists'.mp ha
  rw [Heap.write_live hb]
  exact exact_put hx (hx.counts a blk hb) fun _ _ => rfl

/-- A block allocated, or none. -/
theorem exact_allocRef (hx : Exact h live) (hs : h.Sane) (size : Nat) :
    (∃ h', h.allocRef size = (none, h') ∧ Exact h' live) ∨
      ∃ h', h.allocRef size = (some h.next, h') ∧ h'.blocks h.next ≠ none ∧
        ∀ b : Buffer, b.data = some h.next → Exact h' (b :: live) := by
  unfold Heap.allocRef
  cases h.supply h.next with
  | none => exact Or.inl ⟨_, rfl, hx.counts, hx.live, hx.strays⟩
  | some junk =>
    refine Or.inr ⟨_, rfl, ?_, fun b hb => ?_⟩
    · show (h.put h.next _).blocks h.next ≠ none
      rw [Heap.put_same]
      exact Option.some_ne_none _
    · have hput : Exact (h.put h.next (some ⟨size % 2 ^ 32, 1, junk⟩)) (b :: live) := by
        refine exact_put hx ?_ fun c hca => owners_others hb hca
        rw [owners_cons, if_pos hb, owners_next hs hx]
      exact ⟨hput.counts, hput.live, hput.strays⟩

theorem exact_denied (hx : Exact h live) (hs : h.Sane) {size : Nat} (ha : h.allocRef size = (none, h')) :
    Exact h' live := by
  rcases exact_allocRef hx hs size with ⟨h1, he, hx1⟩ | ⟨h1, he, _⟩
  · rw [ha] at he
    cases he
    exact hx1
  · rw [ha] at he
    cases he

theorem exact_granted (hx : Exact h live) (hs : h.Sane) {size : Nat} (ha : h.allocRef size = (some a, h')) :
    a = h.next ∧ h'.blocks h.next ≠ none ∧ ∀ b : Buffer, b.data = some h.next → Exact h' (b :: live) := by
  rcases exact_allocRef hx hs size with ⟨h1, he, _⟩ | ⟨h1, he, hnew, hx1⟩
  · rw [ha] at he
    cases he
  · rw [ha] at he
    cases he
    exact ⟨rfl, hnew, hx1⟩

/-- The reference is taken as it should be, if there is a block and its count does not wrap. -/
theorem exact_incrRef_iff (hx : Exact h live) (hd : b.data = some a) :
    Exact (h.incrRef a) (b :: live) ↔ h.blocks a ≠ none ∧ owners live a + 1 < 2 ^ 32 := by
  constructor
  · intro hx'
    cases hb : h.blocks a with
    | none =>
      have hstray : (h.incrRef a).strays = 0 := hx'.strays
      unfold Heap.incrRef at hstray
      rw [hb] at hstray
      exact absurd hstray (Nat.succ_ne_zero _)
    | some blk =>
      have hcount := hx'.counts a { blk with count := (blk.count + 1) % 2 ^ 32 }
        (by rw [Heap.incrRef_live hb, Heap.put_same])
      have hlt : (blk.count + 1) % 2 ^ 32 < 2 ^ 32 := Nat.mod_lt _ (by norm_num)
      rw [owners_cons, if_pos hd] at hcount
      refine ⟨Option.some_ne_none _, ?_⟩
      rw [← hcount]
      exact hlt
  · intro hlive
    have hacq := exact_acquire hx (b := b) fun c hc => by
      rw [hd] at hc
      obtain rfl := Option.some.inj hc
      exact hlive
    rwa [hd] at hacq

/-! ## The operations -/

variable {src : Buffer}

theorem exact_clear (hs : h.Sane) (hx : Exact h (b :: rest)) : Exact (b.clear h).1 ((b.clear h).2 :: rest) := by
  unfold Buffer.clear
  cases hd : b.data with
  | none => exact (exact_same hd.symm).mpr hx
  | some a =>
    dsimp only
    split
    · have hrel := exact_release hs hx
      rw [hd] at hrel
      exact (exact_null rfl).mpr hrel
    · exact (exact_same hd.symm).mpr hx

/-- `AppendCapacity`, whether it gets the memory or not. -/
theorem exact_grow (hs : h.Sane) (hx : Exact h (b :: rest)) (n : Nat) :
    Exact (b.appendCapacity h n).2.1 ((b.appendCapacity h n).2.2 :: rest) := by
  have hg := b.grows h n
  generalize b.appendCapacity h n = r at hg ⊢
  cases hg with
  | room => exact hx
  | place _ hd => exact (exact_same hd.symm).mpr (exact_write hx (hx.live b List.mem_cons_self _ hd) _ _)
  | @move a _ h' _ hd _ ha =>
    obtain ⟨rfl, hnew, hx'⟩ := exact_granted hx hs ha
    have hw := exact_write (hx' ⟨some h.next, b.used, 0⟩ rfl) hnew 0 (b.contents h')
    have hrel := exact_release ((hs.allocated ha).write _ _ _) (exact_perm (List.Perm.swap b _ rest) hw)
    rw [hd] at hrel
    exact hrel
  | first _ hd ha =>
    obtain ⟨rfl, _, hx'⟩ := exact_granted ((exact_null hd).mp hx) hs ha
    exact hx' _ rfl
  | refused _ ha => exact exact_denied hx hs ha

theorem appendSize_data (h : Heap) (b : Buffer) (n : Nat) : (b.appendSize h n).2.data = b.data := by
  unfold Buffer.appendSize
  split <;> rfl

theorem exact_writeTail (hx : Exact h (b :: rest)) (l : Bytes) : Exact (b.writeTail h l) (b :: rest) := by
  unfold Buffer.writeTail
  cases hd : b.data with
  | none => exact hx
  | some a => exact exact_write hx (hx.live b List.mem_cons_self a hd) _ _

theorem exact_appendBytes (hs : h.Sane) (hx : Exact h (b :: rest)) (l : Bytes) :
    Exact (b.appendBytes h l).2.1 ((b.appendBytes h l).2.2 :: rest) := by
  have hgrown : Exact (b.grown h l.length).2.1 ((b.grown h l.length).2.2 :: rest) := by
    unfold Buffer.grown
    split
    · exact exact_grow hs hx l.length
    · exact hx
  unfold Buffer.appendBytes
  rcases hg : b.grown h l.length with ⟨e, h', b'⟩
  rw [hg] at hgrown
  cases e with
  | ok => exact (exact_same (appendSize_data _ b' _)).mpr (exact_writeTail hgrown l)
  | _ => exact hgrown

/-- The last reference dropped frees the block. -/
theorem release_last (hx : Exact h (b :: rest)) (hd : b.data = some a) (h0 : owners rest a = 0) :
    (h.release b.data).blocks a = none := by
  obtain ⟨blk, hb⟩ := Option.ne_none_iff_exists'.mp (hx.live b List.mem_cons_self a hd)
  have hcount := hx.counts a blk hb
  rw [owners_cons, if_pos hd, h0] at hcount
  rw [hd]
  show (h.descRef a).blocks a = none
  rw [Heap.descRef_last hb hcount, Heap.put_same]

/-- `operator=`: the block of `src` must outlive the reference dropped. -/
theorem exact_assign_iff (hs : h.Sane) (hx : Exact h (b :: rest)) (hm : src ∈ b :: rest) :
    Exact (b.assign h src).1 (src :: rest) ↔
      ∀ a, src.data = some a →
        if b.data = some a then 1 < owners (b :: rest) a else owners (b :: rest) a + 1 < 2 ^ 32 := by
  have hrel := exact_release hs hx
  unfold Buffer.assign
  cases hd : src.data with
  | none => exact ⟨fun _ a ha => (nomatch ha), fun _ => (exact_null hd).mpr hrel⟩
  | some c =>
    show Exact ((h.release b.data).incrRef c) (src :: rest) ↔ _
    rw [exact_incrRef_iff hrel hd]
    by_cases hbc : b.data = some c
    · have hlt := owners_lt hs hx c
      rw [owners_cons, if_pos hbc] at hlt
      constructor
      · rintro ⟨hlive, _⟩ a ha
        obtain rfl := Option.some.inj ha
        rw [if_pos hbc, owners_cons, if_pos hbc]
        by_contra h0
        exact hlive (release_last hx hbc (by omega))
      · intro hsafe
        have hsafe := hsafe c rfl
        rw [if_pos hbc, owners_cons, if_pos hbc] at hsafe
        obtain ⟨x, hxm, hxc⟩ := List.countP_pos_iff.mp (show 0 < owners rest c by omega)
        exact ⟨hrel.live x hxm c (by simpa using hxc), hlt⟩
    · have hrest : src ∈ rest := by
        rcases List.mem_cons.mp hm with rfl | hrest
        · exact absurd hd hbc
        · exact hrest
      have hown : owners (b :: rest) c = owners rest c := by rw [owners_cons, if_neg hbc, Nat.add_zero]
      constructor
      · rintro ⟨_, hlt⟩ a ha
        obtain rfl := Option.some.inj ha
        rwa [if_neg hbc, hown]
      · intro hsafe
        have hsafe := hsafe c rfl
        rw [if_neg hbc, hown] at hsafe
        exact ⟨hrel.live src hrest c hd, hsafe⟩

/-- A copy takes one more reference. -/
theorem exact_copy_iff (hx : Exact h live) (hm : src ∈ live) :
    Exact (Buffer.copy h src).1 ((Buffer.copy h src).2 :: live) ↔
      ∀ a, src.data = some a → owners live a + 1 < 2 ^ 32 := by
  unfold Buffer.copy Buffer.assign
  cases hd : src.data with
  | none => exact ⟨fun _ a ha => (nomatch ha), fun _ => (exact_null hd).mpr hx⟩
  | some c =>
    show Exact (h.incrRef c) (src :: live) ↔ _
    rw [exact_incrRef_iff hx hd]
    constructor
    · rintro ⟨_, hlt⟩ a ha
      obtain rfl := Option.some.inj ha
      exact hlt
    · intro hsafe
      exact ⟨hx.live src hm c hd, hsafe c rfl⟩

/-- `Append( buffer, size )` shares the block of `buffer` where the buffer has none of its own. -/
theorem exact_append_iff (hs : h.Sane) (hx : Exact h (b :: rest)) (hm : src ∈ b :: rest) (n : Nat) :
    Exact (b.append h src n).2.1 ((b.append h src n).2.2 :: rest) ↔
      (b.data = none → (n = 0 ∨ n ≤ src.used) →
        ∃ a, src.data = some a ∧ owners (b :: rest) a + 1 < 2 ^ 32) := by
  unfold Buffer.append
  by_cases hbig : n ≠ 0 ∧ src.used < n
  · rw [if_pos hbig]
    refine ⟨fun _ _ hn => ?_, fun _ => hx⟩
    omega
  · rw [if_neg hbig]
    have hn : n = 0 ∨ n ≤ src.used := by omega
    cases hd : b.data with
    | some a =>
      refine ⟨fun _ hno => (nomatch hno), fun _ => ?_⟩
      dsimp only
      split
      · exact (exact_same hd.symm).mpr hx
      · exact exact_appendBytes hs hx _
    | none =>
      have hrest := (exact_null hd).mp hx
      dsimp only
      cases hc : src.data with
      | none =>
        constructor
        · intro hx'
          exact absurd hx'.strays (Nat.succ_ne_zero _)
        · intro hsafe
          obtain ⟨a, ha, _⟩ := hsafe rfl hn
          cases ha
      | some c =>
        have hsrc : src ∈ rest := by
          rcases List.mem_cons.mp hm with rfl | hsrc
          · rw [hd] at hc
            cases hc
          · exact hsrc
        have hown : owners (b :: rest) c = owners rest c := by
          rw [owners_cons, hd, if_neg (Option.some_ne_none c).symm, Nat.add_zero]
        refine (exact_incrRef_iff hrest rfl).trans ⟨?_, ?_⟩
        · rintro ⟨_, hlt⟩ _ _
          exact ⟨c, rfl, by rwa [hown]⟩
        · intro hsafe
          obtain ⟨a, ha, hlt⟩ := hsafe rfl hn
          obtain rfl := Option.some.inj ha
          exact ⟨hrest.live src hsrc c hc, by rwa [← hown]⟩

theorem exact_ofBytes (hs : h.Sane) (hx : Exact h live) (l : Bytes) :
    Exact (Buffer.ofBytes h l).2 ((Buffer.ofBytes h l).1.toList ++ live) := by
  unfold Buffer.ofBytes
  split
  · exact (exact_null rfl).mpr hx
  · rcases exact_allocRef hx hs l.length with ⟨h', ha, hx'⟩ | ⟨h', ha, hnew, hx'⟩
    · rw [ha]
      exact hx'
    · rw [ha]
      exact exact_write (hx' ⟨some h.next, l.length, 0⟩ rfl) hnew 0 l

end RedisProxy.Mem
