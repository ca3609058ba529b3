/-
  RedisProxy.Mem.Advance — what a read appends, and how far it advances (buffer_reader.cpp).

  A read has found `n` bytes. It appends them (`Append( tmpBuffer, n )`) and adds `n` to the position. The
  two agree but for `n = 0`, which `Append` takes for all of `tmpBuffer`: a delimiter right at the position,
  not to be read itself, or a length of 0.

  Proved: `advanced_iff`: a read appends what it advances over, and changes nothing where it fails, exactly if
  it does not find 0 bytes where some are left that can be appended (`Swallows`).
-/

import RedisProxy.Mem.Independent
import RedisProxy.Mem.Offsets

namespace RedisProxy.Mem

open Lib.Cells Lib.Decimal Wire

variable {h h' h1 : Heap} {b src dst input tmp : Buffer} {rest : List Buffer} {a n o i : Nat} {l : Bytes}

/-! ## Append that fails -/

/-- `AppendCapacity` keeps the bytes, whatever size it is asked for. -/
theorem grow_kept (hs : h.Sane) (hx : Exact h (b :: rest)) (hb : b.Shaped h) (n : Nat) :
    (b.appendCapacity h n).2.2.contents (b.appendCapacity h n).2.1 = b.contents h := by
  have hg := b.grows h n
  generalize b.appendCapacity h n = r at hg ⊢
  cases hg with
  | room => rfl
  | place _ hd => exact contents_front (hx.live b List.mem_cons_self _ hd) hb.length.symm
  | @move a _ h' _ hd _ ha =>
    have hlive := hx.live b List.mem_cons_self a hd
    have hsame := (same_allocRef hs hx ha).contents List.mem_cons_self
    obtain ⟨rfl, hnew, _⟩ := exact_granted hx hs ha
    have hne : a ≠ h.next := fun he => hlive (hs.unused a (Nat.le_of_eq he.symm))
    have hlast := sameAt_descRef (h := h'.write h.next 0 (b.contents h')) (Ne.symm hne)
    rw [hlast.contents rfl, contents_front hnew]
    · exact hsame
    · rw [hsame, hb.length]
  | first _ hd _ => rw [Buffer.contents, Buffer.contents, hd]; rfl
  | refused _ ha => exact (same_allocRef hs hx ha).contents List.mem_cons_self

theorem bytes_kept (hs : h.Sane) (hx : Exact h (b :: rest)) (hb : b.Shaped h) (hne : (b.appendBytes h l).1 ≠ .ok) :
    (b.appendBytes h l).2.2.contents (b.appendBytes h l).2.1 = b.contents h := by
  have hgrow := grow_kept hs hx hb l.length
  have hexact := exact_grow hs hx l.length
  unfold Buffer.appendBytes at hne ⊢
  rw [grown_eq] at hne ⊢
  rcases he : b.appendCapacity h l.length with ⟨e, h1, b1⟩
  rw [he] at hne hgrow hexact
  cases e with
  | ok =>
    -- `AppendSize` has failed: nobody looks at what was written
    dsimp only at hne hgrow hexact ⊢
    have hsize : (b1.appendSize (b1.writeTail h1 l) l.length).2 = b1 := by
      unfold Buffer.appendSize at hne ⊢
      split
      · rfl
      · rename_i hroom
        rw [if_neg hroom] at hne
        exact absurd rfl hne
    rw [hsize, ← hgrow]
    exact (tail_seen hexact l).mpr fun a _ _ k _ _ hlt => by omega
  | _ => exact hgrow

theorem append_kept (hs : h.Sane) (hx : Exact h (b :: rest)) (hb : b.Shaped h) (hne : (b.append h src n).1 ≠ .ok) :
    (b.append h src n).2.2.contents (b.append h src n).2.1 = b.contents h := by
  unfold Buffer.append at hne ⊢
  split
  · rfl
  · rename_i hfits
    rw [if_neg hfits] at hne
    cases hd : b.data with
    | none =>
      rw [hd] at hne
      exact absurd rfl hne
    | some a =>
      rw [hd] at hne
      dsimp only at hne ⊢
      split
      · rename_i hsame
        rw [if_pos hsame] at hne
        exact absurd rfl hne
      · rename_i hother
        rw [if_neg hother] at hne
        exact bytes_kept hs hx hb hne

/-! ## Append that succeeds -/

theorem bytes_ok_iff (hf : Firm h (b :: rest)) (hl : l.length < 2 ^ 32) :
    (b.appendBytes h l).1 = .ok ↔ b.used + l.length < 2 ^ 32 ∧ (b.Asks h l.length → h.supply h.next ≠ none) := by
  by_cases hlt : b.used + l.length < 2 ^ 32
  · unfold Buffer.appendBytes
    rw [grown_eq]
    rcases grow_cases hf hlt with ⟨hasks, h0, he⟩ | ⟨h1, b1, he, hg⟩
    · rw [he]
      exact iff_of_false Error.noConfusion fun hboth => hboth.2 hasks h0
    · rw [he]
      refine iff_of_true ?_ ⟨hlt, fun hasks h0 => ?_⟩
      · have hok := (sound_receive hg.sound hg.room).1
        rw [← given_writeTail] at hok
        exact hok
      · rw [appendCapacity_refused hasks h0] at he
        cases he
  · exact iff_of_false (appendBytes_far hf hl (Nat.le_of_not_lt hlt)) fun hboth => hlt hboth.1

/-- Of another block: exactly if the block that a copy needs can be had. -/
theorem append_ok_iff (hf : Firm h (b :: rest)) (hss : src.Shaped h) (hlt : src.used < 2 ^ 32) (hn : n ≤ src.used)
    (hne : b.data = none ∨ b.data ≠ src.data) :
    (b.append h src n).1 = .ok ↔ b.data = none ∨
      b.used + src.portion n < 2 ^ 32 ∧ (b.Asks h (src.portion n) → h.supply h.next ≠ none) := by
  have hk := portion_le hn
  unfold Buffer.append
  rw [if_neg (by omega), show (if n = 0 then src.used else n) = src.portion n from rfl]
  generalize src.portion n = k at hk
  cases hd : b.data with
  | none => exact iff_of_true rfl (Or.inl rfl)
  | some a =>
    have hlen : ((src.contents h).take k).length = k := by
      rw [List.length_take, hss.length]
      omega
    have hother : ¬ src.data = some a := by
      rcases hne with hno | hne
      · rw [hd] at hno
        cases hno
      · rw [hd] at hne
        exact Ne.symm hne
    have hiff := bytes_ok_iff hf (l := (src.contents h).take k) (by omega)
    rw [hlen] at hiff
    dsimp only
    rw [if_neg hother, hiff]
    constructor
    · intro hboth
      exact Or.inr hboth
    · rintro (hno | hboth)
      · cases hno
      · exact hboth

/-! ## A read -/

/-- Before a read: the destination is null, or on a block that is not the input's. -/
structure Apart (h : Heap) (input : Buffer) (rest : List Buffer) (dst : Buffer) : Prop where
  sane : h.Sane
  exact : Exact h (dst :: input :: rest)
  shaped : dst.Shaped h
  inputShaped : input.Shaped h
  apart : dst.data = none ∨ dst.data ≠ input.data
  /-- `tmpBuffer` and a share are counted. -/
  room : ∀ a, input.data = some a → owners (input :: rest) a + 2 < 2 ^ 32

/-- What a read at `o` should leave: the bytes from the old position to the new one appended, or nothing done. -/
structure Advanced (h : Heap) (input dst : Buffer) (o : Nat) (r : Error × Heap × Buffer × Nat) : Prop where
  ok : r.1 = .ok → o ≤ r.2.2.2 ∧
    r.2.2.1.contents r.2.1 = dst.contents h ++ ((input.contents h).drop o).take (r.2.2.2 - o)
  err : r.1 ≠ .ok → r.2.2.1.contents r.2.1 = dst.contents h ∧ r.2.2.2 = o

/-- Something is left at `o`, and `Append` of all of it succeeds. -/
def Swallows (h : Heap) (input dst : Buffer) (o : Nat) : Prop :=
  o < input.used ∧ o < 2 ^ 31 ∧ (dst.data = none ∨
    dst.used + (input.used - o) < 2 ^ 32 ∧ (dst.Asks h (input.used - o) → h.supply h.next ≠ none))

/-- After `tmpBuffer` is made: one reference more to the block of the input. -/
structure Opened (h : Heap) (input : Buffer) (rest : List Buffer) (dst : Buffer) (h1 : Heap) (tmp : Buffer) : Prop where
  sane : h1.Sane
  exact : Exact h1 (dst :: tmp :: input :: rest)
  shaped : dst.Shaped h1
  tmpShaped : tmp.Shaped h1
  live : tmp.data ≠ none
  apart : dst.data = none ∨ dst.data ≠ tmp.data
  room : ∀ a, tmp.data = some a → owners (dst :: tmp :: input :: rest) a + 1 < 2 ^ 32
  contents : dst.contents h1 = dst.contents h
  asks : ∀ n, dst.Asks h1 n ↔ dst.Asks h n
  supply : h1.supply h1.next = h.supply h.next

theorem Apart.owners_dst (ha : Apart h input rest dst) (hd : input.data = some a) :
    owners (dst :: input :: rest) a = owners (input :: rest) a := by
  rw [owners_cons]
  rcases ha.apart with hno | hne
  · rw [hno, if_neg (Option.some_ne_none a).symm, Nat.add_zero]
  · rw [if_neg (fun hda => hne (hda.trans hd.symm)), Nat.add_zero]

theorem asks_same (hb : ∀ a, b.data = some a → h1.blocks a = h.blocks a) : b.Asks h1 n ↔ b.Asks h n := by
  have hcap : b.capacity h1 = b.capacity h := by
    unfold Buffer.capacity
    cases hd : b.data with
    | none => rfl
    | some a =>
      dsimp only
      rw [Heap.refSize, Heap.refSize, hb a hd]
  unfold Buffer.Asks
  rw [hcap]
  refine and_congr_right fun _ => forall_congr' fun a => forall_congr' fun hd => ?_
  rw [Heap.refCount, Heap.refCount, hb a hd]

theorem opened (ha : Apart h input rest dst) (hd : input.data = some a) (hdata : tmp.data = some a)
    (htmp : tmp.offset ≤ tmp.size) (hsize : tmp.size ≤ input.size) :
    Opened h input rest dst (Buffer.copy h input).1 tmp := by
  have hlive := ha.exact.live input (List.mem_cons_of_mem _ List.mem_cons_self) a hd
  have hroom := ha.room a hd
  have hown := ha.owners_dst hd
  have hcopy : (Buffer.copy h input).1 = h.incrRef a := by
    show h.acquire input.data = h.incrRef a
    rw [hd]
    rfl
  have hx := (exact_incrRef_iff ha.exact hdata).mpr ⟨hlive, by omega⟩
  have hother : ∀ c, dst.data = some c → (h.incrRef a).blocks c = h.blocks c := by
    intro c hc
    obtain ⟨blk, hb⟩ := Option.ne_none_iff_exists'.mp hlive
    have hca : c ≠ a := by
      rintro rfl
      rcases ha.apart with hno | hne
      · rw [hc] at hno
        cases hno
      · exact hne (hc.trans hd.symm)
    rw [Heap.incrRef_live hb]
    exact Heap.put_ne _ hca
  have hsame : ∀ c, SameAt h (h.incrRef a) c := sameAt_incrRef h a
  have hshape : Same h (h.incrRef a) (dst :: input :: rest) := fun c _ => hsame c
  rw [hcopy]
  refine ⟨ha.sane.incrRef a, exact_perm (List.Perm.swap dst tmp _) hx, ?_, ⟨htmp, ?_⟩, ?_, ?_, fun c hc => ?_, ?_,
    fun n => asks_same hother, ?_⟩
  · exact ⟨ha.shaped.offset_le, by rw [hshape.capacity List.mem_cons_self]; exact ha.shaped.size_le⟩
  · have hcap := ha.inputShaped.size_le
    rw [Buffer.capacity, hd] at hcap
    rw [Buffer.capacity, hdata]
    dsimp only at hcap ⊢
    rw [(hsame a).size]
    omega
  · rw [hdata]
    exact Option.some_ne_none a
  · rw [hdata, ← hd]
    exact ha.apart
  · obtain rfl : a = c := Option.some.inj (hdata.symm.trans hc)
    rw [owners_cons] at hown ⊢
    rw [owners_cons (b := tmp), if_pos hdata]
    omega
  · exact hshape.contents List.mem_cons_self
  · rw [supply_incrRef, Heap.next_incrRef]

/-- A read that has found `i` bytes, `tmpBuffer` its own: whether `Append` succeeds decides. -/
theorem take_advances (ho : Opened h input rest dst h1 tmp) (hi : i ≤ tmp.used) :
    ((dst.append h1 tmp i).1 = .ok →
      (BufferReader.take h1 tmp dst o i).1 = .ok ∧ (BufferReader.take h1 tmp dst o i).2.2.2 = o + i ∧
        (BufferReader.take h1 tmp dst o i).2.2.1.contents (BufferReader.take h1 tmp dst o i).2.1 =
          dst.contents h ++ (tmp.contents h1).take (tmp.portion i)) ∧
    ((dst.append h1 tmp i).1 ≠ .ok →
      (BufferReader.take h1 tmp dst o i).1 ≠ .ok ∧ (BufferReader.take h1 tmp dst o i).2.2.2 = o ∧
        (BufferReader.take h1 tmp dst o i).2.2.1.contents (BufferReader.take h1 tmp dst o i).2.1 = dst.contents h) := by
  have hm : tmp ∈ dst :: tmp :: input :: rest := List.mem_cons_of_mem _ List.mem_cons_self
  have hsane := Buffer.sane_append ho.sane dst tmp i
  have hexact := (exact_append_iff ho.sane ho.exact hm i).mpr fun _ _ => by
    obtain ⟨a, ha⟩ := Option.ne_none_iff_exists'.mp ho.live
    exact ⟨a, ha, ho.room a ha⟩
  have hjoined := joined_apart (n := i) ho.sane ho.exact List.mem_cons_self hm ho.shaped ho.tmpShaped hi ho.live
  have hkept : (dst.append h1 tmp i).1 ≠ .ok →
      (dst.append h1 tmp i).2.2.contents (dst.append h1 tmp i).2.1 = dst.contents h1 :=
    append_kept ho.sane ho.exact ho.shaped
  unfold BufferReader.take
  rcases he : dst.append h1 tmp i with ⟨e, h2, d⟩
  rw [he] at hsane hexact hjoined hkept
  -- `tmpBuffer` goes, and `d` keeps what it has
  have hdestroy : d.contents (tmp.destroy h2) = d.contents h2 := by
    have hsame : Same h2 (h2.release tmp.data) (d :: input :: rest) :=
      fun c hc => sameAt_release hsane (exact_perm (List.Perm.swap tmp d _) hexact) hc
    exact hsame.contents List.mem_cons_self
  have hne : dst.data ≠ tmp.data := by
    rcases ho.apart with hno | hne
    · rw [hno]
      exact Ne.symm ho.live
    · exact hne
  constructor
  · intro hok
    obtain rfl : e = .ok := hok
    refine ⟨rfl, rfl, ?_⟩
    show d.contents (tmp.destroy h2) = _
    rw [hdestroy, ← ho.contents]
    exact (hjoined hne rfl).contents
  · intro herr
    have hc : d.contents (tmp.destroy h2) = dst.contents h := by
      rw [hdestroy, ← ho.contents]
      exact hkept herr
    cases e with
    | ok => exact absurd rfl herr
    | _ => exact ⟨herr, rfl, hc⟩

/-- A read that found nothing. -/
theorem missed_kept (ho : Opened h input rest dst h1 tmp) : dst.contents (tmp.destroy h1) = dst.contents h := by
  have hsame : Same h1 (h1.release tmp.data) (dst :: input :: rest) :=
    fun c hc => sameAt_release ho.sane (exact_perm (List.Perm.swap tmp dst _) ho.exact) hc
  exact (hsame.contents List.mem_cons_self).trans ho.contents

/-- It is right unless it has found 0 bytes of some and `Append` succeeds. -/
theorem take_iff (ho : Opened h input rest dst h1 tmp) (hi : i ≤ tmp.used) (hpos : 0 < tmp.used)
    (hc : tmp.contents h1 = (input.contents h).drop o) :
    Advanced h input dst o (BufferReader.take h1 tmp dst o i) ↔ ¬ (i = 0 ∧ (dst.append h1 tmp i).1 = .ok) := by
  obtain ⟨hyes, hno⟩ := take_advances (o := o) ho hi
  have hlen := ho.tmpShaped.length
  by_cases hok : (dst.append h1 tmp i).1 = .ok
  · obtain ⟨he, hpos', hbytes⟩ := hyes hok
    rw [hc] at hbytes hlen
    constructor
    · rintro hadv ⟨rfl, _⟩
      -- all of it was appended
      have hlast := (hadv.ok he).2
      have hall : ((input.contents h).drop o).take (tmp.portion 0) = (input.contents h).drop o :=
        List.take_of_length_le (Nat.le_of_eq hlen)
      rw [hbytes, hpos', hall, Nat.add_zero, Nat.sub_self, List.take_zero] at hlast
      have hnil := List.append_cancel_left hlast
      rw [hnil] at hlen
      exact Nat.ne_of_lt hpos hlen
    · intro hmore
      have h0 : i ≠ 0 := fun h0 => hmore ⟨h0, hok⟩
      refine ⟨fun _ => ⟨?_, ?_⟩, fun hne => absurd he hne⟩
      · rw [hpos']
        exact Nat.le_add_right o i
      · rw [hbytes, hpos', Nat.add_sub_cancel_left, Buffer.portion, if_neg h0]
  · obtain ⟨he, hpos', hbytes⟩ := hno hok
    exact iff_of_true ⟨fun hyes => absurd hyes he, fun _ => ⟨hbytes, hpos'⟩⟩ fun hboth => hok hboth.2

/-- At a position from 2^31 on it finds nothing, and appends nothing. -/
theorem take_far (ho : Opened h input rest dst h1 tmp) (hnil : tmp.used = 0) :
    Advanced h input dst o (BufferReader.take h1 tmp dst o 0) := by
  obtain ⟨hyes, hno⟩ := take_advances (o := o) ho (Nat.zero_le _)
  have hlen := ho.tmpShaped.length
  rw [hnil] at hlen
  rw [List.eq_nil_of_length_eq_zero hlen, List.take_nil] at hyes
  by_cases hok : (dst.append h1 tmp 0).1 = .ok
  · obtain ⟨he, hpos, hbytes⟩ := hyes hok
    refine ⟨fun _ => ⟨Nat.le_of_eq hpos.symm, ?_⟩, fun hne => absurd he hne⟩
    rw [hbytes, hpos, Nat.add_zero, Nat.sub_self, List.take_zero]
  · obtain ⟨he, hpos, hbytes⟩ := hno hok
    exact ⟨fun hyes => absurd hyes he, fun _ => ⟨hbytes, hpos⟩⟩

/-- `Append` of all that is left. -/
theorem append_all_iff (ho : Opened h input rest dst h1 tmp) (hlt : tmp.used < 2 ^ 32) :
    (dst.append h1 tmp 0).1 = .ok ↔ dst.data = none ∨
      dst.used + tmp.used < 2 ^ 32 ∧ (dst.Asks h tmp.used → h.supply h.next ≠ none) := by
  have hiff := append_ok_iff (firm_bare ho.sane ho.exact ho.shaped) ho.tmpShaped hlt (Nat.zero_le _) ho.apart
  rw [hiff, show tmp.portion 0 = tmp.used from rfl, ho.asks, ho.supply]

/-! ## The three reads -/

theorem advanced_nothing (e : Error) (he : e ≠ .ok) : Advanced h input dst o (e, h, dst, o) :=
  ⟨fun hok => absurd hok he, fun _ => ⟨rfl, rfl⟩⟩

namespace Apart

variable (ha : Apart h input rest dst)

include ha

theorem size_lt (hd : input.data = some a) : input.size < 2 ^ 32 := by
  obtain ⟨blk, hb⟩ := Option.ne_none_iff_exists'.mp
    (ha.exact.live input (List.mem_cons_of_mem _ List.mem_cons_self) a hd)
  have hle := ha.inputShaped.size_le
  rw [Buffer.capacity, hd] at hle
  dsimp only at hle
  rw [Heap.refSize_live hb] at hle
  exact Nat.lt_of_le_of_lt hle (ha.sane.uint32 a blk hb).2

/-- The slice below 2^31. -/
theorem opened_near (ho : o < input.used) (hnear : o < 2 ^ 31) : ∃ h1 tmp,
    BufferReader.tmpBuffer h input o = (h1, tmp) ∧ Opened h input rest dst h1 tmp ∧ tmp.used = input.used - o ∧
      tmp.contents h1 = (input.contents h).drop o := by
  obtain ⟨a, hd⟩ := ha.inputShaped.data_of_pos (Nat.zero_lt_of_lt ho)
  have hle := ha.inputShaped.offset_le
  have hused : input.used = input.size - input.offset := rfl
  refine ⟨_, _, BufferReader.tmpBuffer_near hle (ha.size_lt hd) (Nat.le_of_lt ho) hnear, ?_, ?_, ?_⟩
  · have hdata : (⟨input.data, input.size, input.offset + o⟩ : Buffer).data = some a := hd
    refine opened ha hd hdata ?_ (Nat.le_refl _)
    show input.offset + o ≤ input.size
    omega
  · show input.size - (input.offset + o) = input.used - o
    omega
  · exact BufferReader.slice_contents h (Nat.le_of_lt ho)

/-- And from there on. -/
theorem opened_far (ho : o < input.used) (hfar : 2 ^ 31 ≤ o) : ∃ h1 tmp, BufferReader.tmpBuffer h input o = (h1, tmp) ∧
    Opened h input rest dst h1 tmp ∧ tmp.used = 0 := by
  obtain ⟨a, hd⟩ := ha.inputShaped.data_of_pos (Nat.zero_lt_of_lt ho)
  refine ⟨_, _, BufferReader.tmpBuffer_far ha.inputShaped.offset_le (ha.size_lt hd) (Nat.le_of_lt ho) hfar, ?_, ?_⟩
  · have hdata : (⟨input.data, input.size, input.size⟩ : Buffer).data = some a := hd
    exact opened ha hd hdata (Nat.le_refl _) (Nat.le_refl _)
  · exact Nat.sub_self _

theorem swallows_iff (ho : Opened h input rest dst h1 tmp) (hlt : o < input.used) (hnear : o < 2 ^ 31)
    (hused : tmp.used = input.used - o) : (dst.append h1 tmp 0).1 = .ok ↔ Swallows h input dst o := by
  obtain ⟨a, hd⟩ := ha.inputShaped.data_of_pos (Nat.zero_lt_of_lt hlt)
  have hsize := ha.size_lt hd
  have hle : input.used ≤ input.size := Nat.sub_le _ _
  rw [append_all_iff ho (by omega), hused]
  exact ⟨fun hok => ⟨hlt, hnear, hok⟩, fun hs => hs.2.2⟩

/-- A search that has found something: wrong only if it is right at the position. -/
theorem found_iff {extend : Nat} (find : Bytes → Option Nat) (hfind : ∀ l i, find l = some i → i < l.length)
    (hextend : extend ≤ 1) (hlt : o < input.used) :
    Advanced h input dst o (BufferReader.findIn (BufferReader.tmpBuffer h input o) o dst find extend) ↔
      ¬ (extend = 0 ∧ find ((input.contents h).drop o) = some 0 ∧ Swallows h input dst o) := by
  unfold BufferReader.findIn
  by_cases hnear : o < 2 ^ 31
  · obtain ⟨h1, tmp, he, ho, hused, hc⟩ := ha.opened_near hlt hnear
    rw [he]
    dsimp only
    rw [hc]
    cases hf : find ((input.contents h).drop o) with
    | none =>
      dsimp only
      refine iff_of_true ⟨Error.noConfusion, fun _ => ⟨missed_kept ho, rfl⟩⟩ ?_
      rintro ⟨_, hsome, _⟩
      cases hsome
    | some j =>
      have hj := hfind _ j hf
      rw [List.length_drop, ha.inputShaped.length] at hj
      dsimp only
      rw [take_iff ho (by omega) (by omega) hc]
      refine not_congr ⟨?_, ?_⟩
      · rintro ⟨h0, hok⟩
        obtain ⟨rfl, rfl⟩ := Nat.add_eq_zero_iff.mp h0
        exact ⟨rfl, rfl, (ha.swallows_iff ho hlt hnear hused).mp hok⟩
      · rintro ⟨rfl, hzero, hs⟩
        obtain rfl := Option.some.inj hzero
        exact ⟨rfl, (ha.swallows_iff ho hlt hnear hused).mpr hs⟩
  · obtain ⟨h1, tmp, he, ho, hused⟩ := ha.opened_far hlt (Nat.le_of_not_lt hnear)
    have hnil : find (tmp.contents h1) = none := by
      rw [Option.eq_none_iff_forall_not_mem]
      intro j hj
      have hj := hfind _ j hj
      rw [ho.tmpShaped.length, hused] at hj
      exact Nat.not_lt_zero j hj
    rw [he]
    dsimp only
    rw [hnil]
    exact iff_of_true ⟨Error.noConfusion, fun _ => ⟨missed_kept ho, rfl⟩⟩ fun hbad => hnear hbad.2.2.2.1

theorem read_iff {length : Nat} :
    Advanced h input dst o (BufferReader.read h input o dst length) ↔ ¬ (length = 0 ∧ Swallows h input dst o) := by
  unfold BufferReader.read
  by_cases heof : BufferReader.eof input o = true
  · rw [if_pos heof]
    exact iff_of_true (advanced_nothing _ Error.noConfusion) fun hbad =>
      Nat.not_le_of_lt hbad.2.1 (BufferReader.le_of_eof heof)
  rw [if_neg heof]
  have hlt := BufferReader.lt_of_not_eof heof
  by_cases hmore : input.used - o < length
  · rw [if_pos hmore]
    refine iff_of_true (advanced_nothing _ Error.noConfusion) ?_
    rintro ⟨rfl, _⟩
    exact Nat.not_lt_zero _ hmore
  rw [if_neg hmore]
  by_cases hnear : o < 2 ^ 31
  · obtain ⟨h1, tmp, he, ho, hused, hc⟩ := ha.opened_near hlt hnear
    rw [he]
    dsimp only
    rw [take_iff ho (by omega) (by omega) hc]
    refine not_congr (and_congr_right ?_)
    rintro rfl
    exact ha.swallows_iff ho hlt hnear hused
  · obtain ⟨h1, tmp, he, ho, hused⟩ := ha.opened_far hlt (Nat.le_of_not_lt hnear)
    rw [he]
    dsimp only
    refine iff_of_true ?_ fun hbad => hnear hbad.2.2.1
    by_cases h0 : length = 0
    · subst h0
      exact take_far ho hused
    · -- `Append` refuses what `tmpBuffer` does not have
      have hrefused : dst.append h1 tmp length = (.outOfBound, h1, dst) := by
        unfold Buffer.append
        rw [if_pos ⟨h0, by omega⟩]
      unfold BufferReader.take
      rw [hrefused]
      exact ⟨Error.noConfusion, fun _ => ⟨missed_kept ho, rfl⟩⟩

end Apart

/-- Both `ReadUntil` and `Read` append what they advance over, and do nothing where they fail, exactly if they do
    not find 0 bytes where some are left and can be appended. -/
theorem advanced_iff (ha : Apart h input rest dst) (o : Nat) :
    (∀ ch extend, extend ≤ 1 → (Advanced h input dst o (BufferReader.readUntil h input o dst ch extend) ↔
      ¬ (extend = 0 ∧ memchr ((input.contents h).drop o) ch = some 0 ∧ Swallows h input dst o))) ∧
    (∀ chs extend, extend ≤ 1 → (Advanced h input dst o (BufferReader.readUntilSet h input o dst chs extend) ↔
      ¬ (extend = 0 ∧ chs.findSome? (memchr ((input.contents h).drop o)) = some 0 ∧ Swallows h input dst o))) ∧
    ∀ length, Advanced h input dst o (BufferReader.read h input o dst length) ↔
      ¬ (length = 0 ∧ Swallows h input dst o) := by
  refine ⟨fun ch extend hextend => ?_, fun chs extend hextend => ?_, fun length => ha.read_iff⟩
  · rw [BufferReader.readUntil_eq]
    by_cases heof : BufferReader.eof input o = true
    · rw [if_pos heof]
      exact iff_of_true (advanced_nothing _ Error.noConfusion) fun hbad =>
        Nat.not_le_of_lt hbad.2.2.1 (BufferReader.le_of_eof heof)
    · rw [if_neg heof]
      exact ha.found_iff (memchr · ch) (fun _ _ => BufferReader.memchr_lt) hextend
        (BufferReader.lt_of_not_eof heof)
  · rw [BufferReader.readUntilSet_eq]
    by_cases heof : BufferReader.eof input o = true
    · rw [if_pos heof]
      exact iff_of_true (advanced_nothing _ Error.noConfusion) fun hbad =>
        Nat.not_le_of_lt hbad.2.2.1 (BufferReader.le_of_eof heof)
    · rw [if_neg heof]
      exact ha.found_iff (fun l => chs.findSome? (memchr l)) (fun _ _ => BufferReader.findSome_lt) hextend
        (BufferReader.lt_of_not_eof heof)

/-- A blank and an `a`, and a fresh buffer. -/
theorem apart_blank : Apart (Buffer.ofBytes (.start fun _ => some fun _ => 0) [32, 97]).2 ⟨some 0, 2, 0⟩ [] .null := by
  have hs := Heap.sane_start fun _ => some fun _ => 0
  have hx := exact_ofBytes hs (sound_start fun _ => Option.some_ne_none _).exact [32, 97]
  refine ⟨Buffer.sane_ofBytes hs _, (exact_null rfl).mpr hx, ⟨by decide, by decide⟩, ⟨by decide, by decide⟩,
    Or.inl rfl, fun a ha => ?_⟩
  cases ha
  decide

/-- The blank read with what follows it. -/
theorem advanced_iff_blank :
    let h := (Buffer.ofBytes (.start fun _ => some fun _ => 0) [32, 97]).2
    Advanced h ⟨some 0, 2, 0⟩ .null 0 (BufferReader.readUntil h ⟨some 0, 2, 0⟩ 0 .null 32 1) ↔
      ¬ (1 = 0 ∧ memchr (Buffer.contents h ⟨some 0, 2, 0⟩) 32 = some 0 ∧ Swallows h ⟨some 0, 2, 0⟩ .null 0) :=
  (advanced_iff apart_blank 0).1 32 1 (Nat.le_refl 1)

/-- The empty token before it: both bytes are in the buffer, and the reader has not moved. -/
theorem empty_token_swallows :
    ¬ ∀ (h : Heap) (input dst : Buffer) (rest : List Buffer) (o : Nat), Apart h input rest dst →
      (∀ ch extend, extend ≤ 1 → Advanced h input dst o (BufferReader.readUntil h input o dst ch extend)) ∧
      (∀ chs extend, extend ≤ 1 → Advanced h input dst o (BufferReader.readUntilSet h input o dst chs extend)) ∧
      ∀ length, Advanced h input dst o (BufferReader.read h input o dst length) := by
  intro hall
  have hadv := (hall _ _ _ _ 0 apart_blank).2.1 [32, 10] 0 (Nat.zero_le 1)
  have hbytes := (hadv.ok rfl).2
  exact absurd (congrArg List.length hbytes) (by decide)

end RedisProxy.Mem
