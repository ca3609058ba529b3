/-
  RedisProxy.Mem.Reader — the reader over the heap does what `Wire.BufferReader` says.

  A read is given the input, somebody else's buffers (`rest`) and `dst`, which has a block
  of its own or none. It makes a `tmpBuffer` and destroys it again; in between `dst` takes
  a share of the input's block (when it has none) or copies the bytes to its own. `Reads`
  is what that leaves: the bytes and the position of `Wire`, nobody else's bytes touched,
  and where the slice lies that `dst` may have become.

  Proved: `reads_until`, `reads_untilAny`, `reads_read`; `line_number`: `atoi` reads on to the
  end of the block; `CmdParser.handOver_view`.
-/

import RedisProxy.Mem.Parser
import RedisProxy.Wire.Passage

namespace RedisProxy.Mem

open Lib.Cells Lib.Decimal Wire Wire.BufferReader

variable {h h' : Heap} {input dst : Buffer} {rest : List Buffer} {o i a : Nat}

/-- Before a read at `o`. -/
structure Reading (h : Heap) (input : Buffer) (rest : List Buffer) (dst : Buffer) (o : Nat) : Prop where
  sound : Sound h (dst :: input :: rest)
  own : Own dst (input :: rest)
  /-- `tmpBuffer` and a share are counted. -/
  room : ∀ a, input.data = some a → owners (input :: rest) a + 2 < 2 ^ 32
  lt : input.used < 2 ^ 31
  afford : dst.used + (input.used - o) + 4 < 2 ^ 32

/-- After it: `w` is what `Wire` says, `r` what was done. -/
structure Reads (h : Heap) (input : Buffer) (rest : List Buffer) (dst : Buffer) (o : Nat)
    (w : Error × Bytes × Wire.BufferReader) (r : Error × Heap × Buffer × Nat) : Prop where
  err : r.1 = w.1
  contents : r.2.2.1.contents r.2.1 = w.2.1
  reader : w.2.2 = ⟨input.contents h, r.2.2.2⟩
  sound : Sound r.2.1 (r.2.2.1 :: input :: rest)
  same : Same h r.2.1 (input :: rest)
  /-- A share of the input's block begins at the position. -/
  slice : dst.data = none → r.1 = .ok →
    r.2.2.1.data = input.data ∧ r.2.2.1.offset = input.offset + o ∧ r.2.2.1.size ≤ input.size
  own : dst.data ≠ none → r.2.2.1.data ≠ none ∧ Own r.2.2.1 (input :: rest)
  failed : r.1 ≠ .ok → r.2.2.1 = dst
  le : o ≤ input.used → r.2.2.2 ≤ input.used
  onward : o ≤ r.2.2.2

/-- A null buffer does not count. -/
theorem sound_drop {b : Buffer} {live : List Buffer} (hs : Sound h (b :: live)) (hd : b.data = none) : Sound h live :=
  ⟨hs.sane, (exact_null hd).mp hs.exact, fun x hm => hs.shaped x (List.mem_cons_of_mem _ hm), hs.plenty⟩

namespace BufferReader

/-- What a `ReadUntil` does with the bytes before it, `find` the search. -/
def findIn (s : Heap × Buffer) (o : Nat) (dst : Buffer) (find : Bytes → Option Nat) (extend : Nat) :
    Error × Heap × Buffer × Nat :=
  match find (s.2.contents s.1) with
  | none => (.notFound, s.2.destroy s.1, dst, o)
  | some i => take s.1 s.2 dst o (i + extend)

theorem readUntil_eq (h : Heap) (input : Buffer) (o : Nat) (dst : Buffer) (ch : Byte) (extend : Nat) :
    readUntil h input o dst ch extend =
      if eof input o then (.outOfBound, h, dst, o) else findIn (tmpBuffer h input o) o dst (memchr · ch) extend := rfl

theorem readUntilAny_eq (h : Heap) (input : Buffer) (o : Nat) (dst : Buffer) (chs : List Byte) :
    readUntilAny h input o dst chs =
      if eof input o then (.outOfBound, h, dst, o)
      else findIn (tmpBuffer h input o) o dst (fun l => chs.findSome? (memchr l)) 0 := rfl

theorem lt_of_not_eof (hend : ¬ eof input o = true) : o < input.used := by
  simp only [eof, decide_eq_true_eq] at hend
  omega

theorem le_of_eof (hend : eof input o = true) : input.used ≤ o := of_decide_eq_true hend

theorem eof_view (hs : Sound h (input :: rest)) (o : Nat) :
    eof input o = (⟨input.contents h, o⟩ : Wire.BufferReader).eof := by
  unfold eof Wire.BufferReader.eof
  rw [length_contents hs]

theorem data_of_lt (hs : Sound h (input :: rest)) (ho : o < input.used) : ∃ a, input.data = some a :=
  (hs.shaped input List.mem_cons_self).data_of_pos (Nat.zero_lt_of_lt ho)

theorem rest_view {c : Bytes} (ho : o < 2 ^ 31) : (⟨c, o⟩ : Wire.BufferReader).rest = c.drop o := by
  unfold Wire.BufferReader.rest Wire.Buffer.offset
  rw [if_pos (show o < 2 ^ 31 from ho)]

/-- `Wire`'s append of bytes that are there. -/
theorem wire_take {c d : Bytes} (ho : o < 2 ^ 31) (hi : i ≤ c.length - o) :
    (⟨c, o⟩ : Wire.BufferReader).take d i =
      (.ok, d ++ (c.drop o).take (if i = 0 then c.length - o else i), ⟨c, o + i⟩) := by
  unfold Wire.BufferReader.take
  rw [rest_view ho, Wire.Buffer.append]
  by_cases h0 : i = 0
  · rw [if_pos h0, if_pos h0, List.take_of_length_le (by rw [List.length_drop])]
  · rw [if_neg h0, if_neg h0, if_neg (by rw [List.length_drop]; omega)]

/-- `tmpBuffer`: one reference more, and the bytes from the position on. -/
theorem tmpBuffer_spec (hr : Reading h input rest dst o) (ho : o < input.used) :
    ∃ h1 t, tmpBuffer h input o = (h1, t) ∧ t = ⟨input.data, input.size, input.offset + o⟩ ∧
      Sound h1 (t :: dst :: input :: rest) ∧ Same h h1 (dst :: input :: rest) ∧
      t.contents h1 = (input.contents h).drop o ∧ t.used = input.used - o := by
  have hsi : Sound h (input :: dst :: rest) := sound_swap hr.sound
  have hshape := hsi.shaped input List.mem_cons_self
  have hlt := hr.lt
  have hm : input ∈ dst :: input :: rest := List.mem_cons_of_mem _ List.mem_cons_self
  have hoff : input.offsetBy (int32 o) 0 = ⟨input.data, input.size, input.offset + o⟩ :=
    offsetBy_near hshape.offset_le (Nat.lt_of_le_of_lt hshape.size_le (capacity_lt hsi)) (Nat.le_of_lt ho) (by omega)
  have htshape := shaped_start hshape (Nat.le_of_lt ho)
  obtain ⟨hs1, hsame⟩ := sound_acquire hr.sound htshape fun a ha => by
    have hroom := hr.room a ha
    refine ⟨owners_pos hm ha, ?_⟩
    rw [owners_cons]
    split
    · rename_i hda
      have hown := hr.own a hda
      rw [owners_cons, if_pos ha] at hown
      omega
    · omega
  refine ⟨_, _, rfl, hoff, ?_, ?_, ?_, ?_⟩
  · show Sound (h.acquire input.data) (input.offsetBy (int32 o) 0 :: dst :: input :: rest)
    rw [hoff]
    exact hs1
  · exact hsame
  · show (input.offsetBy (int32 o) 0).contents (h.acquire input.data) = _
    rw [hoff, contents_start (Nat.le_of_lt ho), hsame.contents hm]
  · show (input.offsetBy (int32 o) 0).used = _
    rw [hoff]
    show input.size - (input.offset + o) = input.size - input.offset - o
    omega

section Taken

variable {h1 : Heap} {t : Buffer} (hr : Reading h input rest dst o) (ho : o < input.used) (hi : i ≤ input.used - o)
  (ht : t = ⟨input.data, input.size, input.offset + o⟩) (hs : Sound h1 (t :: dst :: input :: rest))
  (hsame : Same h h1 (dst :: input :: rest)) (hc : t.contents h1 = (input.contents h).drop o)
  (hu : t.used = input.used - o)

include hr ho hi ht hs hsame hc hu

/-- A null `dst` takes a share of the input's block. -/
theorem reads_share (hd : dst.data = none) :
    Reads h input rest dst o
      (.ok, dst.contents h ++ ((input.contents h).drop o).take (if i = 0 then input.used - o else i),
        ⟨input.contents h, o + i⟩) (take h1 t dst o i) := by
  obtain ⟨a, ha⟩ := data_of_lt (sound_swap hr.sound) ho
  have hta : t.data = some a := by rw [ht]; exact ha
  have hs1 := sound_drop (sound_swap hs) hd
  have hroom : owners (t :: input :: rest) a + 1 < 2 ^ 32 := by
    have hroom := hr.room a ha
    rw [owners_cons, if_pos hta]
    omega
  obtain ⟨h2, d, he, hs2, hsame2, hda, hsize, hdc⟩ := sound_share hs1 List.mem_cons_self hta hroom hd
    (show i ≤ t.used by omega)
  have hoff : d.offset = input.offset + o := by
    have hd2 := congrArg (fun r => r.2.2.offset) he
    unfold Buffer.append at hd2
    rw [if_neg (by omega), hd] at hd2
    rw [← hd2]
    show t.offset = _
    rw [ht]
  obtain ⟨hs3, hsame3⟩ := sound_release (sound_swap hs2)
  have hdc3 := hsame3.contents (List.mem_cons_self (a := d))
  have hnil : dst.contents h = [] := by rw [Buffer.contents, hd]
  unfold take
  rw [he]
  refine ⟨rfl, ?_, rfl, hs3, ?_, fun _ _ => ⟨?_, hoff, ?_⟩, fun hne => absurd hd hne, fun he => absurd rfl he,
    fun _ => by show o + i ≤ input.used; omega, Nat.le_add_right o i⟩
  · show d.contents (h2.release t.data) = dst.contents h ++ _
    rw [hdc3, hdc, hc, hu, hnil, List.nil_append]
  · exact ((hsame.tail).trans hsame2.tail).trans hsame3.tail
  · show d.data = input.data
    rw [hda, ha]
  · show d.size ≤ input.size
    rw [ht] at hsize
    exact hsize

/-- A `dst` that has a block gets a copy. -/
theorem reads_copy {c : Nat} (hd : dst.data = some c) :
    Reads h input rest dst o
      (.ok, dst.contents h ++ ((input.contents h).drop o).take (if i = 0 then input.used - o else i),
        ⟨input.contents h, o + i⟩) (take h1 t dst o i) := by
  obtain ⟨a, ha⟩ := data_of_lt (sound_swap hr.sound) ho
  have hta : t.data = some a := by rw [ht]; exact ha
  have hlen : (input.contents h).length = input.used := length_contents (sound_swap hr.sound)
  have hca : c ≠ a := by
    rintro rfl
    have hown := hr.own c hd
    rw [owners_cons, if_pos ha] at hown
    omega
  have hne : ¬ (t.data = some c) := fun e => hca (Option.some.inj (hta.symm.trans e)).symm
  have hown1 : Own dst (t :: input :: rest) := by
    intro x hx
    rw [hd] at hx
    obtain rfl := Option.some.inj hx
    rw [owners_cons, if_neg hne, hr.own c hd]
  have hk : (if i = 0 then t.used else i) = if i = 0 then input.used - o else i := by rw [hu]
  have hlek : (if i = 0 then t.used else i) ≤ input.used - o := by
    rw [hk]
    split <;> omega
  generalize hkk : (if i = 0 then t.used else i) = k at hk hlek
  have hbytes : ((t.contents h1).take k).length = k := by
    rw [List.length_take, hc, List.length_drop, hlen]
    omega
  have hafford := hr.afford
  obtain ⟨h2, d, he, hs2, hown2, hsame2, hdc, hdn⟩ := sound_appendBytes (l := (t.contents h1).take k)
    (sound_swap hs) hown1 (by unfold Buffer.Affords; rw [hbytes]; omega)
  have happend : dst.append h1 t i = (.ok, h2, d) := by
    unfold Buffer.append
    rw [if_neg (by omega), hd]
    dsimp only
    rw [if_neg hne, hkk]
    exact he
  obtain ⟨hs3, hsame3⟩ := sound_release (sound_swap hs2)
  have hdc3 := hsame3.contents (List.mem_cons_self (a := d))
  have hdlive : d.data ≠ none := hdn (Or.inl (by rw [hd]; exact Option.some_ne_none c))
  unfold take
  rw [happend]
  refine ⟨rfl, ?_, rfl, hs3, ?_, fun hno _ => absurd (hd.symm.trans hno) (Option.some_ne_none c),
    fun _ => ⟨hdlive, ?_⟩, fun he => absurd rfl he, fun _ => by show o + i ≤ input.used; omega,
    Nat.le_add_right o i⟩
  · show d.contents (h2.release t.data) = dst.contents h ++ _
    rw [hdc3, hdc, hsame.contents List.mem_cons_self, hc, hk]
  · exact ((hsame.tail).trans hsame2.tail).trans hsame3.tail
  · intro x hx
    have hx := hown2 x hx
    rw [owners_cons] at hx
    show owners (input :: rest) x = 0
    omega

end Taken

/-- The end of a read whose bytes are there. -/
theorem reads_take (hr : Reading h input rest dst o) (ho : o < input.used) (hi : i ≤ input.used - o) :
    ∃ h1 t, tmpBuffer h input o = (h1, t) ∧ t.contents h1 = (input.contents h).drop o ∧
      Reads h input rest dst o ((⟨input.contents h, o⟩ : Wire.BufferReader).take (dst.contents h) i)
        (take h1 t dst o i) := by
  obtain ⟨h1, t, he, ht, hs1, hsame1, htc, htu⟩ := tmpBuffer_spec hr ho
  have hlen : (input.contents h).length = input.used := length_contents (sound_swap hr.sound)
  have hlt := hr.lt
  refine ⟨h1, t, he, htc, ?_⟩
  rw [wire_take (by omega) (by omega), hlen]
  cases hd : dst.data with
  | none => exact reads_share hr ho hi ht hs1 hsame1 htc htu hd
  | some c => exact reads_copy hr ho hi ht hs1 hsame1 htc htu hd

/-- A read that does nothing. -/
theorem reads_nothing (hr : Reading h input rest dst o) {e : Error} (he : e ≠ .ok) :
    Reads h input rest dst o (e, dst.contents h, ⟨input.contents h, o⟩) (e, h, dst, o) :=
  ⟨rfl, rfl, rfl, hr.sound, .refl _ _, fun _ hok => absurd hok he, fun hd => ⟨hd, hr.own⟩,
    fun _ => rfl, id, Nat.le_refl o⟩

/-- A read that makes `tmpBuffer` and finds nothing. -/
theorem reads_missed (hr : Reading h input rest dst o) (ho : o < input.used) {e : Error} (hne : e ≠ .ok) :
    ∃ h1 t, tmpBuffer h input o = (h1, t) ∧ t.contents h1 = (input.contents h).drop o ∧
      Reads h input rest dst o (e, dst.contents h, ⟨input.contents h, o⟩) (e, t.destroy h1, dst, o) := by
  obtain ⟨h1, t, he, _, hs1, hsame1, htc, _⟩ := tmpBuffer_spec hr ho
  obtain ⟨hs2, hsame2⟩ := sound_release hs1
  refine ⟨h1, t, he, htc, rfl, ?_, rfl, hs2, (hsame1.trans hsame2).tail, fun _ hok => absurd hok hne,
    fun hd => ⟨hd, hr.own⟩, fun _ => rfl, id, Nat.le_refl o⟩
  exact (hsame1.trans hsame2).contents List.mem_cons_self

theorem memchr_lt {l : Bytes} {ch : Byte} (hf : memchr l ch = some i) : i < l.length := by
  obtain ⟨line, s, rfl, _, rfl⟩ := memchr_eq_some hf
  rw [List.length_append, List.length_cons]
  omega

theorem findSome_lt {l : Bytes} {chs : List Byte} (hf : chs.findSome? (memchr l) = some i) : i < l.length := by
  obtain ⟨_, ch, _, _, hf, _⟩ := List.findSome?_eq_some_iff.mp hf
  exact memchr_lt hf

/-- A read up to what `find` finds, and `k` bytes of that. -/
theorem reads_found (find : Bytes → Option Nat) (k : Nat) (hr : Reading h input rest dst o)
    (hfind : ∀ l i, find l = some i → i + k ≤ l.length) :
    Reads h input rest dst o
      (if (⟨input.contents h, o⟩ : Wire.BufferReader).eof then (.outOfBound, dst.contents h, ⟨input.contents h, o⟩)
        else match find (⟨input.contents h, o⟩ : Wire.BufferReader).rest with
          | none => (.notFound, dst.contents h, ⟨input.contents h, o⟩)
          | some i => (⟨input.contents h, o⟩ : Wire.BufferReader).take (dst.contents h) (i + k))
      (if eof input o then (.outOfBound, h, dst, o) else findIn (tmpBuffer h input o) o dst find k) := by
  have hsi := sound_swap hr.sound
  have hlen : (input.contents h).length = input.used := length_contents hsi
  rw [← eof_view hsi]
  by_cases hend : eof input o = true
  · rw [if_pos hend, if_pos hend]
    exact reads_nothing hr Error.noConfusion
  · have ho := lt_of_not_eof hend
    have hlt := hr.lt
    rw [if_neg hend, if_neg hend, rest_view (by omega)]
    cases hf : find ((input.contents h).drop o) with
    | none =>
      obtain ⟨h1, t, he, htc, hreads⟩ := reads_missed hr ho (e := .notFound) Error.noConfusion
      rw [he, findIn, htc, hf]
      exact hreads
    | some i =>
      have hi := hfind _ i hf
      rw [List.length_drop, hlen] at hi
      obtain ⟨h1, t, he, htc, hreads⟩ := reads_take hr ho hi
      rw [he, findIn, htc, hf]
      exact hreads

theorem reads_until (hr : Reading h input rest dst o) (ch : Byte) :
    Reads h input rest dst o ((⟨input.contents h, o⟩ : Wire.BufferReader).readUntil (dst.contents h) ch 1)
      (readUntil h input o dst ch 1) :=
  reads_found (memchr · ch) 1 hr fun _ _ hf => Nat.succ_le_of_lt (memchr_lt hf)

theorem reads_untilAny (hr : Reading h input rest dst o) (chs : List Byte) :
    Reads h input rest dst o ((⟨input.contents h, o⟩ : Wire.BufferReader).readUntilAny (dst.contents h) chs)
      (readUntilAny h input o dst chs) :=
  reads_found (fun l => chs.findSome? (memchr l)) 0 hr fun _ _ hf => Nat.le_of_lt (findSome_lt hf)

theorem reads_read (hr : Reading h input rest dst o) (n : Nat) :
    Reads h input rest dst o ((⟨input.contents h, o⟩ : Wire.BufferReader).read (dst.contents h) n)
      (read h input o dst n) := by
  have hsi := sound_swap hr.sound
  have hlen : (input.contents h).length = input.used := length_contents hsi
  unfold read Wire.BufferReader.read
  rw [← eof_view hsi, hlen]
  by_cases hend : eof input o = true
  · rw [if_pos hend, if_pos hend]
    exact reads_nothing hr Error.noConfusion
  · have ho := lt_of_not_eof hend
    rw [if_neg hend, if_neg hend]
    by_cases hshort : input.used - o < n
    · rw [if_pos hshort, if_pos hshort]
      exact reads_nothing hr Error.noConfusion
    · rw [if_neg hshort, if_neg hshort]
      obtain ⟨h1, t, he, _, hreads⟩ := reads_take hr ho (Nat.le_of_not_lt hshort)
      rw [he]
      exact hreads

theorem lt_of_read {n : Nat} {r : Heap × Buffer × Nat} (hx : read h input o dst n = (.ok, r)) : o < input.used := by
  by_contra hend
  rw [read, eof, if_pos (decide_eq_true (Nat.le_of_not_lt hend))] at hx
  cases hx

theorem next_view (hs : Sound h (input :: rest)) (o : Nat) :
    (⟨input.contents h, o⟩ : Wire.BufferReader).next = ⟨input.contents h, next input o⟩ := by
  unfold next Wire.BufferReader.next
  rw [← eof_view hs]
  split <;> rfl

theorem next_le (ho : o ≤ input.used) : next input o ≤ input.used := by
  unfold next eof
  split
  · exact ho
  · rename_i hend
    rw [decide_eq_true_eq] at hend
    omega

theorem current_view (hs : Sound h (input :: rest)) (o : Nat) :
    (⟨input.contents h, o⟩ : Wire.BufferReader).current = current h input o := by
  unfold current Wire.BufferReader.current
  rw [← eof_view hs]

end BufferReader

/-! ## Numbers -/

/-- The rest of the block behind `size_`, and what lies behind it. -/
def Buffer.behind (h : Heap) (b : Buffer) (far : Bytes) : Bytes :=
  match b.data with
  | none => far
  | some a => cells (h.cellsAt a) b.size (h.refSize a - b.size) ++ far

theorem Same.behind {live : List Buffer} {b : Buffer} (hs : Same h h' live) (hm : b ∈ live) (far : Bytes) :
    b.behind h' far = b.behind h far := by
  unfold Buffer.behind
  cases hd : b.data with
  | none => rfl
  | some a =>
    have hat := hs a (owners_pos hm hd)
    dsimp only
    rw [hat.cells, hat.size]

/-- `atoi` on a line of the input sees the rest of the input, and what is behind it. -/
theorem parseInt32_line {buf : Buffer} (hs : Sound h (buf :: input :: rest)) (ha : buf.data = input.data)
    (hoff : buf.offset = input.offset + o) (hsize : buf.size ≤ input.size) (far : Bytes) :
    parseInt32 h buf 1 far =
      Wire.parseInt32 (buf.contents h) 1 ((input.contents h).drop (o + buf.used) ++ input.behind h far) := by
  have hlen : (buf.contents h).length = buf.used := length_contents hs
  have hsi := sound_swap hs
  have hbuf := hs.shaped buf List.mem_cons_self
  have hin := hsi.shaped input List.mem_cons_self
  unfold parseInt32 Wire.parseInt32
  rw [hlen]
  by_cases hshort : buf.used ≤ 1
  · rw [if_pos hshort, if_pos hshort]
  · rw [if_neg hshort, if_neg hshort]
    congr 1
    cases hd : input.data with
    | none =>
      rw [Buffer.contents, ha, hd] at hlen
      have hlen : 0 = buf.used := hlen
      omega
    | some a =>
      have h1 := hbuf.offset_le
      have h2 := hin.offset_le
      have h3 := hin.size_le
      have hu : buf.used = buf.size - buf.offset := rfl
      have hiu : input.used = input.size - input.offset := rfl
      rw [Buffer.capacity, hd] at h3
      dsimp only at h3
      rw [Buffer.memory, Buffer.contents, Buffer.contents, Buffer.behind, ha, hd]
      dsimp only
      rw [cells_drop _ _ _ (show o + buf.used ≤ input.used by omega)]
      have hmid : input.offset + (o + buf.used) = buf.offset + buf.used := by omega
      have hend : buf.offset + buf.used + (input.used - (o + buf.used)) = input.size := by omega
      rw [hmid, ← List.append_assoc, ← List.append_assoc, cells_append]
      rw [show input.size = buf.offset + (buf.used + (input.used - (o + buf.used))) by omega]
      rw [cells_append]
      rw [List.drop_append_of_le_length (by rw [length_cells]; omega), cells_drop _ _ _ (by omega)]
      congr 2
      omega

theorem Reading.within (hr : Reading h input rest dst o) (ho : o ≤ input.used) :
    Within ⟨input.contents h, o⟩ := by
  have hlen := length_contents (sound_swap hr.sound)
  exact ⟨by rw [hlen]; exact ho, by rw [hlen]; exact hr.lt⟩

/-- An `OK` has read a line, and passed it. -/
theorem line_read {c line : Bytes} {r : Wire.BufferReader} (hw : Within ⟨c, o⟩)
    (hu : (⟨c, o⟩ : Wire.BufferReader).readUntil [] LF 1 = (.ok, line, r)) :
    0 < line.length ∧ r.offset = o + line.length := by
  have hp := readUntil_passed hw [] LF
  have hon := (readUntil_onward ⟨c, o⟩ [] LF 1).2
  rw [hu] at hp hon
  have hlen := hp.length
  have hle := hp.le
  have hstep := hon rfl
  have hlen : line.length + (c.length - r.offset) = 0 + (c.length - o) := hlen
  have hle : r.offset ≤ c.length := hle
  have hstep : o + 1 ≤ r.offset := hstep
  omega

/-- The number of a line just read, `h'` still holding the line and the input. -/
theorem line_number {h1 : Heap} {buf : Buffer} {line : Bytes} {live : List Buffer} {o1 : Nat}
    (hw : Within ⟨input.contents h, o⟩)
    (hu : Reads h input rest .null o (.ok, line, ⟨input.contents h, o1⟩) (.ok, h1, buf, o1))
    (hW : (⟨input.contents h, o⟩ : Wire.BufferReader).readUntil [] LF 1 = (.ok, line, ⟨input.contents h, o1⟩))
    (hs : Sound h' (buf :: input :: live)) (hsame : Same h1 h' [buf, input]) (far : Bytes) :
    parseInt32 h' buf 1 far =
      Wire.parseInt32 line 1 ((input.contents h).drop o1 ++ input.behind h far) := by
  obtain ⟨_, hoff⟩ := line_read hw hW
  have hoff : o1 = o + line.length := hoff
  have hline : buf.contents h1 = line := hu.contents
  have hsound : Sound h1 (buf :: input :: rest) := hu.sound
  have hlen : line.length = buf.used := by rw [← hline]; exact length_contents hsound
  have hsame1 : Same h h1 (input :: rest) := hu.same
  obtain ⟨hdata, hbegin, hend⟩ := hu.slice rfl rfl
  have hin : input ∈ [buf, input] := List.mem_cons_of_mem _ List.mem_cons_self
  rw [parseInt32_line hs hdata hbegin hend far, ← hlen, ← hoff, hsame.contents List.mem_cons_self, hline,
    hsame.contents hin, hsame.behind hin, hsame1.contents List.mem_cons_self, hsame1.behind List.mem_cons_self]

/-! ## The input moves on -/

/-- The input advances over what the reader has passed. -/
theorem CmdParser.handOver_view {live : List Buffer} {o' : Nat} (hs : Sound h (input :: live)) (ho : o' ≤ input.used)
    (hlt : input.used < 2 ^ 31) (type : ParseType) (m : Wire.MultibulkParser) :
    let P' := (⟨type, m, input, 0⟩ : CmdParser).handOver o'
    P'.view h = (⟨type, m, input.contents h, 0⟩ : Wire.CmdParser).handOver ⟨input.contents h, o'⟩ ∧
      Sound h (P'.inputb :: live) ∧
      P' = ⟨type, m, ⟨input.data, input.size, input.offset + o'⟩, 0⟩ := by
  have hshape := hs.shaped input List.mem_cons_self
  unfold handOver Wire.CmdParser.handOver
  dsimp only
  by_cases h0 : 0 = o'
  · subst h0
    rw [if_pos rfl, if_pos rfl]
    exact ⟨rfl, hs, rfl⟩
  · have hoff : input.offsetBy (int32 o') 0 = ⟨input.data, input.size, input.offset + o'⟩ :=
      offsetBy_near hshape.offset_le (Nat.lt_of_le_of_lt hshape.size_le (capacity_lt hs)) ho (by omega)
    rw [if_neg h0, if_neg h0, hoff]
    refine ⟨?_, sound_same hs rfl (shaped_start hshape ho), rfl⟩
    unfold view
    dsimp only
    rw [contents_start ho, Wire.Buffer.offset, if_pos (by omega)]

end RedisProxy.Mem
