/-
  RedisProxy.Mem.Joined — `Append( buffer, size )` (buffer.cpp).

  A null buffer takes a share of the other's block; a buffer on another block gets a copy. Two on
  one block are taken to be neighbours: `size_` grows over whatever comes next in the block.

  Proved: `joined_iff`: the contents are one behind the other, and the buffer lies in its block,
  exactly if what comes next are the bytes appended (`Follows`); so they are when the other buffer begins
  where this one ends (`follows_next`), as in the reader.
-/

import RedisProxy.Mem.Growth

namespace RedisProxy.Mem

open Lib.Cells Lib.Decimal Wire

variable {h h' : Heap} {live rest : List Buffer} {a n k : Nat} {b b' src : Buffer} {l : Bytes}

/-- What `Append( buffer, size )` is for: `k` bytes of `src` behind those of `b`. -/
structure Joined (h : Heap) (b src : Buffer) (k : Nat) (h' : Heap) (b' : Buffer) : Prop where
  contents : b'.contents h' = b.contents h ++ (src.contents h).take k
  shaped : b'.Shaped h'

namespace Buffer

/-- The bytes that a size of `n` asks of it. -/
def portion (src : Buffer) (n : Nat) : Nat := if n = 0 then src.used else n

/-- The next `k` bytes of the block, after `b`, are the first of `src`. -/
def Follows (h : Heap) (b src : Buffer) (k : Nat) : Prop :=
  b.size + k ≤ b.capacity h ∧ contents h ⟨b.data, b.size + k, b.size⟩ = (src.contents h).take k

end Buffer

theorem portion_le (hn : n ≤ src.used) : src.portion n ≤ src.used := by
  unfold Buffer.portion
  split
  · exact Nat.le_refl _
  · exact hn

/-- A buffer and what comes next in its block. -/
theorem contents_next (hle : b.offset ≤ b.size) (k : Nat) :
    Buffer.contents h ⟨b.data, b.size + k, b.offset⟩ =
      b.contents h ++ Buffer.contents h ⟨b.data, b.size + k, b.size⟩ := by
  unfold Buffer.contents
  cases b.data with
  | none => rfl
  | some a =>
    show cells (h.cellsAt a) b.offset (b.size + k - b.offset) =
      cells (h.cellsAt a) b.offset (b.size - b.offset) ++ cells (h.cellsAt a) b.size (b.size + k - b.size)
    have happ := cells_append (h.cellsAt a) b.offset (b.size - b.offset) (b.size + k - b.size)
    rw [show b.offset + (b.size - b.offset) = b.size by omega] at happ
    rw [happ]
    congr 1
    omega

theorem follows_next (hs : src.Shaped h) (hd : src.data = b.data) (ho : src.offset = b.size) (hk : k ≤ src.used) :
    b.Follows h src k := by
  have hle := hs.size_le
  have hused : src.used = src.size - src.offset := rfl
  have hcap : src.capacity h = b.capacity h := by
    unfold Buffer.capacity
    rw [hd]
  refine ⟨?_, ?_⟩
  · have h1 := hs.offset_le
    omega
  · unfold Buffer.contents
    rw [hd]
    cases b.data with
    | none => exact List.take_nil.symm
    | some a =>
      show cells (h.cellsAt a) b.size (b.size + k - b.size) = (cells (h.cellsAt a) src.offset src.used).take k
      rw [cells_take _ _ _ hk, ho, Nat.add_sub_cancel_left]

/-! ## The three ways through -/

/-- A share of the block, from where `src` begins. -/
theorem joined_shared (hd : b.data = none) (hs : src.Shaped h) (ha : src.data = some a) (hk : k ≤ src.used) :
    Joined h b src k (h.incrRef a) ⟨some a, src.offset + k, src.offset⟩ := by
  have hle := hs.size_le
  have h1 := hs.offset_le
  have hused : src.used = src.size - src.offset := rfl
  have hnil : b.contents h = [] := by rw [Buffer.contents, hd]
  have hsame := sameAt_incrRef h a a
  refine ⟨?_, Nat.le_add_right _ _, ?_⟩
  · rw [hnil, List.nil_append]
    unfold Buffer.contents
    rw [ha]
    show cells ((h.incrRef a).cellsAt a) src.offset (src.offset + k - src.offset) = _
    rw [hsame.cells, Nat.add_sub_cancel_left]
    exact (cells_take _ _ _ hk).symm
  · show src.offset + k ≤ (h.incrRef a).refSize a
    rw [Buffer.capacity, ha] at hle
    dsimp only at hle
    rw [hsame.size]
    omega

/-- A longer slice of the block. -/
theorem joined_extended (src : Buffer) (k : Nat) (hb : b.Shaped h) :
    Joined h b src k h ⟨b.data, b.size + k, b.offset⟩ ↔ b.Follows h src k := by
  have hle := hb.offset_le
  constructor
  · intro hj
    have hc := hj.contents
    rw [contents_next hle] at hc
    exact ⟨hj.shaped.size_le, List.append_cancel_left hc⟩
  · rintro ⟨hroom, hc⟩
    refine ⟨?_, Nat.le_trans hle (Nat.le_add_right _ _), hroom⟩
    rw [contents_next hle, hc]

/-- `Append( data, size )` that returns `OK`, the block shared or not. -/
theorem received_of_ok (hf : Firm h (b :: rest)) (hl : l.length < 2 ^ 32) (he : b.appendBytes h l = (.ok, h', b')) :
    b'.contents h' = b.contents h ++ l ∧ b'.Shaped h' := by
  have hlt : b.used + l.length < 2 ^ 32 := by
    by_contra hfar
    exact appendBytes_far hf hl (Nat.le_of_not_lt hfar) (by rw [he])
  unfold Buffer.appendBytes at he
  rw [grown_eq] at he
  rcases grow_cases hf hlt with ⟨_, _, hno⟩ | ⟨h1, b1, hok, hg⟩
  · rw [hno] at he
    cases he
  · obtain ⟨_, hr⟩ := sound_receive hg.sound hg.room
    rw [← given_writeTail] at hr
    rw [hok] at he
    simp only [Prod.mk.injEq] at he
    obtain ⟨_, rfl, rfl⟩ := he
    have hshaped := hr.sound.shaped _ List.mem_cons_self
    refine ⟨?_, hshaped.offset_le, hshaped.size_le⟩
    exact hr.contents.trans (congrArg (· ++ l) hg.contents)

/-- Two buffers that are not on one block. -/
theorem joined_apart (hs : h.Sane) (hx : Exact h live) (hb : b ∈ live) (hsrc : src ∈ live) (hbs : b.Shaped h)
    (hss : src.Shaped h) (hn : n ≤ src.used) (hlive : src.data ≠ none) (hne : b.data ≠ src.data)
    (hok : (b.append h src n).1 = .ok) :
    Joined h b src (src.portion n) (b.append h src n).2.1 (b.append h src n).2.2 := by
  have hk := portion_le hn
  have hf := firm_bare hs (exact_perm (List.perm_cons_erase hb) hx) hbs
  have hcaps := firm_capacity (firm_bare hs (exact_perm (List.perm_cons_erase hsrc) hx) hss)
  have hssize := hss.size_le
  have hle := hss.offset_le
  have hused : src.used = src.size - src.offset := rfl
  obtain ⟨a, ha⟩ := Option.ne_none_iff_exists'.mp hlive
  unfold Buffer.append at hok ⊢
  rw [if_neg (by omega)] at hok ⊢
  rw [show (if n = 0 then src.used else n) = src.portion n from rfl] at hok ⊢
  generalize src.portion n = k at hk hok ⊢
  cases hd : b.data with
  | none =>
    dsimp only
    rw [ha, word_of_lt (by omega)]
    exact joined_shared hd hss ha hk
  | some c =>
    rw [hd] at hok hne
    dsimp only at hok ⊢
    rw [if_neg (Ne.symm hne)] at hok ⊢
    rcases he : b.appendBytes h ((src.contents h).take k) with ⟨e, h', b'⟩
    rw [he] at hok
    obtain rfl : e = .ok := hok
    have hl : ((src.contents h).take k).length < 2 ^ 32 := by
      rw [List.length_take, hss.length]
      omega
    obtain ⟨hc, hshaped⟩ := received_of_ok hf hl he
    exact ⟨hc, hshaped⟩

/-- Where `Append( buffer, size )` returns `OK` it has done what it is for, except on one block if
    something else comes next there. -/
theorem joined_iff (hs : h.Sane) (hx : Exact h live) (hb : b ∈ live) (hsrc : src ∈ live) (hbs : b.Shaped h)
    (hss : src.Shaped h) (hpos : 0 < src.used) (hn : n ≤ src.used) :
    ((b.append h src n).1 = .ok → Joined h b src (src.portion n) (b.append h src n).2.1 (b.append h src n).2.2) ↔
      (b.data = src.data → b.Follows h src (src.portion n)) := by
  obtain ⟨a, ha⟩ := hss.data_of_pos hpos
  have hlive : src.data ≠ none := by
    rw [ha]
    exact Option.some_ne_none a
  by_cases hne : b.data = src.data
  · -- both on one block
    have hk := portion_le hn
    have hcap := firm_capacity (firm_bare hs (exact_perm (List.perm_cons_erase hb) hx) hbs)
    have hcaps := firm_capacity (firm_bare hs (exact_perm (List.perm_cons_erase hsrc) hx) hss)
    have hbsize := hbs.size_le
    have hssize := hss.size_le
    have hused : src.used = src.size - src.offset := rfl
    have hd : b.data = some a := hne.trans ha
    have hextended := joined_extended src (src.portion n) hbs
    rw [hd] at hextended
    have he : b.append h src n = (.ok, h, ⟨some a, b.size + src.portion n, b.offset⟩) := by
      unfold Buffer.append
      rw [if_neg (by omega), hd]
      dsimp only
      rw [if_pos ha, show (if n = 0 then src.used else n) = src.portion n from rfl, word_of_lt (by omega)]
    rw [he]
    exact ⟨fun hj _ => hextended.mp (hj rfl), fun hfollows _ => hextended.mpr (hfollows hne)⟩
  · exact iff_of_true (fun hok => joined_apart hs hx hb hsrc hbs hss hn hlive hne hok) fun he => absurd he hne

/-- `abcd` in two slices of one block, the second appended to the first. -/
theorem joined_iff_neighbours :
    let h := (Buffer.ofBytes (.start fun _ => some fun _ => 0) [97, 98, 99, 100]).2.incrRef 0
    let b : Buffer := ⟨some 0, 2, 0⟩
    let src : Buffer := ⟨some 0, 4, 2⟩
    ((b.append h src 0).1 = .ok → Joined h b src (src.portion 0) (b.append h src 0).2.1 (b.append h src 0).2.2) ↔
      (b.data = src.data → b.Follows h src (src.portion 0)) := by
  have hs := Heap.sane_start fun _ => some fun _ => 0
  have hx := exact_ofBytes hs (sound_start fun _ => Option.some_ne_none _).exact [97, 98, 99, 100]
  have hshared := (exact_incrRef_iff (b := ⟨some 0, 4, 2⟩) hx rfl).mpr ⟨Option.some_ne_none _, by decide⟩
  have hboth := exact_perm (List.Perm.swap ⟨some 0, 4, 0⟩ ⟨some 0, 4, 2⟩ []) hshared
  have hdata : (⟨some 0, 2, 0⟩ : Buffer).data = (⟨some 0, 4, 0⟩ : Buffer).data := rfl
  have hcut := (exact_same hdata).mpr hboth
  exact joined_iff ((Buffer.sane_ofBytes hs _).incrRef 0) hcut List.mem_cons_self
    (List.mem_cons_of_mem _ List.mem_cons_self) ⟨by decide, by decide⟩ ⟨by decide, by decide⟩ (by decide) (by decide)

/-- `abc` appended to itself: a buffer of six bytes in a block of three. -/
theorem appended_to_itself :
    ¬ ∀ (h : Heap) (live : List Buffer) (b src : Buffer) (n : Nat), h.Sane → Exact h live → b ∈ live →
      src ∈ live → b.Shaped h → src.Shaped h → 0 < src.used → n ≤ src.used → (b.append h src n).1 = .ok →
        Joined h b src (src.portion n) (b.append h src n).2.1 (b.append h src n).2.2 := by
  intro hall
  have hs := Heap.sane_start fun _ => some fun _ => 0
  have hx := exact_ofBytes hs (sound_start fun _ => Option.some_ne_none _).exact [97, 98, 99]
  have hj := hall _ _ ⟨some 0, 3, 0⟩ ⟨some 0, 3, 0⟩ 0 (Buffer.sane_ofBytes hs [97, 98, 99]) hx List.mem_cons_self
    List.mem_cons_self ⟨by decide, by decide⟩ ⟨by decide, by decide⟩ (by decide) (by decide) rfl
  exact absurd hj.shaped.size_le (by decide)

end RedisProxy.Mem
