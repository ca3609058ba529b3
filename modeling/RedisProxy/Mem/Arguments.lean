/-
  RedisProxy.Mem.Arguments — the arguments of a request over the heap (cmd.h, cmd.cpp,
  buffer.cpp).

  An argument is a slice of the block the input is received to, and stays what it was: it
  ends at the input's `size_` or before, bytes are read behind that (`Held.below`), and
  `AppendCapacity` leaves a block that an argument looks at.

  The counts stay within 32 bits. For each argument a byte of the block has been passed, or
  will be before the next (`Held.here`); a full `argv_` takes a second reference for each
  while it grows.

  Proved: what a token leaves that becomes an argument (`took_argument`).
-/

import RedisProxy.Mem.Reader

namespace RedisProxy.Mem

open Lib.Cells Lib.Decimal Wire

variable {h h' h'' : Heap} {input buf : Buffer} {args live rest : List Buffer} {c c' c'' : Cmd} {o o' o'' k k' : Nat}

/-! ## A vector of buffers -/

theorem owners_append (l l' : List Buffer) (a : Nat) : owners (l ++ l') a = owners l a + owners l' a :=
  List.countP_append

theorem sound_acquires (bs : List Buffer) : ∀ (h : Heap) (live : List Buffer), Sound h live → bs ⊆ live →
    (∀ a, 0 < owners bs a → owners live a + owners bs a < 2 ^ 32) →
      Sound (h.acquires bs) (bs ++ live) ∧ Same h (h.acquires bs) live := by
  induction bs with
  | nil => intro h live hs _ _; exact ⟨hs, .refl h live⟩
  | cons b bs ih =>
    intro h live hs hsub hroom
    have hm : b ∈ live := hsub List.mem_cons_self
    obtain ⟨hs1, hsame1⟩ := sound_acquire hs (hs.shaped b hm) fun a ha => by
      have hr := hroom a (owners_pos List.mem_cons_self ha)
      rw [owners_cons, if_pos ha] at hr
      exact ⟨owners_pos hm ha, by omega⟩
    have hsub' : bs ⊆ b :: live := fun x hx => List.mem_cons_of_mem _ (hsub (List.mem_cons_of_mem _ hx))
    obtain ⟨hs2, hsame2⟩ := ih (h.acquire b.data) (b :: live) hs1 hsub' fun a ha => by
      have hr := hroom a (by rw [owners_cons]; omega)
      rw [owners_cons] at hr ⊢
      omega
    exact ⟨sound_perm List.perm_middle hs2, hsame1.trans hsame2.tail⟩

theorem sound_releases (bs : List Buffer) : ∀ h : Heap, Sound h (bs ++ live) →
    Sound (h.releases bs) live ∧ Same h (h.releases bs) live := by
  induction bs with
  | nil => intro h hs; exact ⟨hs, .refl h live⟩
  | cons b bs ih =>
    intro h hs
    obtain ⟨hs1, hsame1⟩ := sound_release hs
    obtain ⟨hs2, hsame2⟩ := ih _ hs1
    exact ⟨hs2, (hsame1.mono (List.subset_append_right bs live)).trans hsame2⟩

/-- `push_back`, in a full vector or not. -/
theorem sound_appendArg (hs : Sound h live) (hm : buf ∈ live) (hsub : c.argv ⊆ live)
    (hroom : ∀ a, buf.data = some a ∨ 0 < owners c.argv a → owners live a + owners c.argv a + 1 < 2 ^ 32) :
    (c.appendArg h buf).2.argv = c.argv ++ [buf] ∧ Sound (c.appendArg h buf).1 (buf :: live) ∧
      Same h (c.appendArg h buf).1 live := by
  obtain ⟨hs1, hsame1⟩ := sound_acquire hs (hs.shaped buf hm) fun a ha =>
    ⟨owners_pos hm ha, by have := hroom a (Or.inl ha); omega⟩
  unfold Cmd.appendArg
  dsimp only
  split
  · exact ⟨rfl, hs1, hsame1⟩
  · obtain ⟨hs2, hsame2⟩ := sound_acquires c.argv _ _ hs1 (fun x hx => List.mem_cons_of_mem _ (hsub hx)) fun a ha => by
      have hr := hroom a (Or.inr ha)
      rw [owners_cons]
      split <;> omega
    obtain ⟨hs3, hsame3⟩ := sound_releases c.argv _ hs2
    exact ⟨rfl, hs3, hsame1.trans (hsame2.trans hsame3).tail⟩

/-! ## Who has the block -/

/-- `k` bounds the arguments that lie in the input's block. -/
structure Held (input : Buffer) (args rest : List Buffer) (k : Nat) : Prop where
  own : Own input rest
  lt : input.used < 2 ^ 31
  /-- An argument's block is the input's, or was. -/
  apart : ∀ a, 0 < owners args a → owners rest a = 0
  few : ∀ a, owners args a < 2 ^ 31
  here : ∀ a, input.data = some a → owners args a ≤ k
  /-- An argument ends where the input ends, or before. -/
  below : ∀ x ∈ args, x.data = input.data → x.size ≤ input.size

theorem Held.mono (hh : Held input args rest k) (hk : k ≤ k') : Held input args rest k' :=
  ⟨hh.own, hh.lt, hh.apart, hh.few, fun a ha => Nat.le_trans (hh.here a ha) hk, hh.below⟩

theorem held_nil (hown : Own input rest) (hlt : input.used < 2 ^ 31) (k : Nat) : Held input [] rest k :=
  ⟨hown, hlt, fun _ ha => absurd ha (Nat.lt_irrefl 0), fun _ => Nat.two_pow_pos 31, fun _ _ => Nat.zero_le k,
    fun _ hx => (nomatch hx)⟩

/-- The input has moved on in its block. -/
theorem Held.advance {input' : Buffer} (hh : Held input args rest k) (hd : input'.data = input.data)
    (hsize : input.size ≤ input'.size) (hlt : input'.used < 2 ^ 31) : Held input' args rest k := by
  refine ⟨fun a ha => hh.own a (hd.symm.trans ha), hlt, hh.apart, hh.few,
    fun a ha => hh.here a (hd.symm.trans ha), fun x hx hxd => ?_⟩
  exact Nat.le_trans (hh.below x hx (hxd.trans hd)) hsize

theorem Held.push (hh : Held input args rest k) (hk : k + 1 < 2 ^ 31) (hd : buf.data = input.data)
    (hsize : buf.size ≤ input.size) : Held input (args ++ [buf]) rest (k + 1) := by
  have hcount : ∀ a, owners (args ++ [buf]) a = owners args a + if input.data = some a then 1 else 0 := by
    intro a
    rw [owners_append, owners_cons, hd]
    show owners args a + (0 + _) = _
    rw [Nat.zero_add]
  refine ⟨hh.own, hh.lt, fun a ha => ?_, fun a => ?_, fun a ha => ?_, fun x hx hxd => ?_⟩
  · by_cases hi : input.data = some a
    · exact hh.own a hi
    · rw [hcount, if_neg hi] at ha
      exact hh.apart a ha
  · rw [hcount]
    split
    · rename_i hi
      have hle := hh.here a hi
      omega
    · exact hh.few a
  · have hle := hh.here a ha
    rw [hcount, if_pos ha]
    omega
  · rcases List.mem_append.mp hx with hx | hx
    · exact hh.below x hx hxd
    · obtain rfl := List.mem_singleton.mp hx
      exact hsize

/-- A token can be read. -/
theorem Held.reading (hh : Held input args rest k) (hs : Sound h (input :: (args ++ rest))) (o : Nat) :
    Reading h input (args ++ rest) .null o := by
  have hlt := hh.lt
  refine ⟨sound_null hs, fun _ ha => (nomatch ha), fun a ha => ?_, by omega, ?_⟩
  · have hfew := hh.few a
    rw [owners_cons, if_pos ha, owners_append, hh.own a ha]
    omega
  · show 0 + (input.used - o) + 4 < 2 ^ 32
    omega

/-- The token becomes an argument. -/
theorem sound_argument (hs : Sound h (buf :: input :: (c.argv ++ rest))) (hh : Held input c.argv rest k)
    (hk : k + 1 < 2 ^ 31) (hd : buf.data = input.data) :
    (c.appendArg h buf).2.argv = c.argv ++ [buf] ∧
      Sound (c.appendArg h buf).1 (buf :: input :: ((c.argv ++ [buf]) ++ rest)) ∧
      Same h (c.appendArg h buf).1 (buf :: input :: (c.argv ++ rest)) := by
  have hm : buf ∈ buf :: input :: (c.argv ++ rest) := List.mem_cons_self
  obtain ⟨hargv, hs1, hsame1⟩ := sound_appendArg (c := c) hs hm (by intro x hx; simp [hx]) fun a ha => by
    have hfew := hh.few a
    rw [owners_cons, owners_cons, owners_append, hd]
    by_cases hi : input.data = some a
    · have hle := hh.here a hi
      have hown := hh.own a hi
      rw [if_pos hi]
      omega
    · have hpos : 0 < owners c.argv a := ha.resolve_left fun hb => hi (hd.symm.trans hb)
      have hown := hh.apart a hpos
      rw [if_neg hi]
      omega
  have hperm : (buf :: buf :: input :: (c.argv ++ rest)).Perm (buf :: input :: ((c.argv ++ [buf]) ++ rest)) := by
    rw [List.append_assoc]
    have hmid : ((input :: c.argv) ++ buf :: rest).Perm (buf :: ((input :: c.argv) ++ rest)) := List.perm_middle
    exact hmid.symm.cons buf
  exact ⟨hargv, sound_perm hperm hs1, hsame1⟩

/-- `Offset( 0, -n )` of a token. -/
theorem sound_trim (hs : Sound h (buf :: live)) {n : Nat} (h0 : 0 < n) (hlt : n < 2 ^ 31) :
    (buf.offsetBy 0 (-n)).data = buf.data ∧ (buf.offsetBy 0 (-n)).size ≤ buf.size ∧
      Sound h (buf.offsetBy 0 (-n) :: live) ∧
      (buf.offsetBy 0 (-n)).contents h = Wire.Buffer.trim (buf.contents h) n := by
  have hshape := hs.shaped buf List.mem_cons_self
  rw [offsetBy_end hshape (capacity_lt hs) h0 hlt]
  refine ⟨rfl, Nat.sub_le _ _, sound_same hs rfl (shaped_end hshape), ?_⟩
  rw [contents_end hshape, Wire.Buffer.trim, length_contents hs]

/-- `Clear` lets go of a block that somebody else has. -/
theorem clear_shared (hs : Sound h (buf :: live)) {a : Nat} (hd : buf.data = some a) (hl : 0 < owners live a) :
    buf.clear h = (buf.destroy h, .null) := by
  obtain ⟨blk, hb⟩ := Option.ne_none_iff_exists'.mp (hs.exact.live buf List.mem_cons_self a hd)
  have hcount := hs.exact.counts a blk hb
  rw [owners_cons, if_pos hd] at hcount
  unfold Buffer.clear Buffer.destroy
  rw [hd]
  dsimp only
  rw [Heap.refCount_live hb, if_pos (by omega)]
  rfl

/-! ## Appended -/

/-- A handler has come from `c` to `c'` and to `o'`, where `Wire` comes to `d` and `r`. -/
structure Took (h : Heap) (input : Buffer) (rest : List Buffer) (c : Cmd) (d : Wire.Cmd) (r : Wire.BufferReader)
    (h' : Heap) (c' : Cmd) (o' : Nat) : Prop where
  contents : c'.view h' = d
  reader : r = ⟨input.contents h, o'⟩
  sound : Sound h' (input :: (c'.argv ++ rest))
  same : Same h h' (input :: (c.argv ++ rest))
  grows : c.argv <+: c'.argv
  le : o' ≤ input.used

theorem Took.refl (hs : Sound h (input :: (c.argv ++ rest))) (ho : o ≤ input.used) :
    Took h input rest c (c.view h) ⟨input.contents h, o⟩ h c o :=
  ⟨rfl, rfl, hs, .refl _ _, List.prefix_refl _, ho⟩

theorem Took.trans {d d' : Wire.Cmd} {r r' : Wire.BufferReader} (h1 : Took h input rest c d r h' c' o')
    (h2 : Took h' input rest c' d' r' h'' c'' o'') : Took h input rest c d' r' h'' c'' o'' := by
  have hsub : input :: (c.argv ++ rest) ⊆ input :: (c'.argv ++ rest) := by
    intro x hx
    have hargs := h1.grows.subset (a := x)
    simp only [List.mem_cons, List.mem_append] at hx ⊢
    tauto
  refine ⟨h2.contents, ?_, h2.sound, h1.same.trans (h2.same.mono hsub), h1.grows.trans h2.grows, h2.le⟩
  rw [h2.reader, h1.same.contents List.mem_cons_self]

theorem Same.view (hs : Same h h' (c.argv ++ rest)) : c.view h' = c.view h :=
  List.map_congr_left fun _ hx => hs.contents (List.mem_append_left rest hx)

/-- A token has been looked for, and is not there. -/
theorem took_nothing (hsame : Same h h' (input :: (c.argv ++ rest))) (hs : Sound h' (input :: (c.argv ++ rest)))
    (ho : o ≤ input.used) : Took h input rest c (c.view h) ⟨input.contents h, o⟩ h' c o :=
  ⟨hsame.tail.view, rfl, hs, hsame, List.prefix_refl _, ho⟩

/-- A token has been read, trimmed to `arg` maybe; it is appended and let go of. -/
theorem took_argument {arg : Buffer} (hsame : Same h h' (input :: (c.argv ++ rest)))
    (hs : Sound h' (arg :: input :: (c.argv ++ rest))) (hh : Held input c.argv rest k) (hk : k + 1 < 2 ^ 31)
    (h0 : 0 < input.used) (hd : arg.data = input.data) (hsize : arg.size ≤ input.size) (ho : o ≤ input.used) :
    Took h input rest c (c.view h ++ [arg.contents h']) ⟨input.contents h, o⟩
        (arg.destroy (c.appendArg h' arg).1) (c.appendArg h' arg).2 o ∧
      Held input (c.appendArg h' arg).2.argv rest (k + 1) ∧
      arg.clear (c.appendArg h' arg).1 = (arg.destroy (c.appendArg h' arg).1, .null) := by
  obtain ⟨hargv, hs1, hsame1⟩ := sound_argument hs hh hk hd
  obtain ⟨hs2, hsame2⟩ := sound_release hs1
  have hsame' := hsame1.trans (hsame2.mono (show arg :: input :: (c.argv ++ rest) ⊆ _ by
    intro x hx; simp at hx ⊢; tauto))
  refine ⟨⟨?_, rfl, by rw [hargv]; exact hs2, hsame.trans hsame'.tail, ⟨[arg], hargv.symm⟩, ho⟩, ?_, ?_⟩
  · unfold Cmd.view
    rw [hargv, List.map_append, List.map_singleton]
    congr 1
    · exact (hsame.trans hsame'.tail).tail.view
    · exact congrArg (fun x => [x]) (hsame'.contents List.mem_cons_self)
  · rw [hargv]
    exact hh.push hk hd hsize
  · have hin := hs1.shaped input (List.mem_cons_of_mem _ List.mem_cons_self)
    cases ha : arg.data with
    | none =>
      have hle := hin.size_le
      rw [Buffer.capacity, hd.symm.trans ha] at hle
      have hle : input.size ≤ 0 := hle
      have hused : input.used = input.size - input.offset := rfl
      omega
    | some a => exact clear_shared hs1 ha (owners_pos List.mem_cons_self (hd.symm.trans ha))

end RedisProxy.Mem
