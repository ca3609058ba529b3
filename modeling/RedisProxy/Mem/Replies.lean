/-
  RedisProxy.Mem.Replies — replies over the heap: the input grows, moves and is read, `resp`
  is filled, handed on and cleared.

  `resp` has a block of its own when a line or an item is appended to it, since the first
  thing a multibulk reply appends is copied (`readInt32`). Only a line reply makes it a
  slice of the input's block, and that call returns `OK`: `resp` is cleared at once.

  Proved: every reply call does on the bytes what `Wire.CmdParser` says
  (`parseResponse_view`); with it, over every run, the replies handed on, `resp` and the
  unread input are the bytes received (`reply_transparency`).
-/

import RedisProxy.Lib.Runs
import RedisProxy.Mem.Reader
import RedisProxy.Wire.Passage

namespace RedisProxy.Mem

open Lib Lib.Runs Lib.Cells Lib.Decimal Wire Wire.BufferReader
open Wire.MultibulkParser (Counting counting_reset readSize)

variable {h h' h'' : Heap} {input p p' p'' : Buffer} {rest : List Buffer} {o o' o'' : Nat}

/-- From `p` and `o` to `p'` and `o'`, where `Wire` comes to `d` and `r`. -/
structure Moved (h : Heap) (input : Buffer) (rest : List Buffer) (p : Buffer) (d : Bytes) (r : Wire.BufferReader)
    (h' : Heap) (p' : Buffer) (o' : Nat) : Prop where
  contents : p'.contents h' = d
  reader : r = ⟨input.contents h, o'⟩
  sound : Sound h' (p' :: input :: rest)
  own : Own p' (input :: rest)
  same : Same h h' (input :: rest)
  block : p.data ≠ none → p'.data ≠ none

theorem Moved.refl (hr : Reading h input rest p o) :
    Moved h input rest p (p.contents h) ⟨input.contents h, o⟩ h p o :=
  ⟨rfl, rfl, hr.sound, hr.own, .refl _ _, id⟩

/-- The next read can follow. -/
theorem Moved.reading {d : Bytes} {r : Wire.BufferReader} (hm : Moved h input rest p d r h' p' o')
    (hr : Reading h input rest p o) (hp : Passed ⟨input.contents h, o⟩ (p.contents h) r d) :
    Reading h' input rest p' o' := by
  have hc := length_contents (sound_swap hr.sound)
  have h1 := length_contents hr.sound
  have h2 := length_contents hm.sound
  have hlen := hp.length
  rw [hm.reader] at hlen
  have hlen : d.length + ((input.contents h).length - o') = (p.contents h).length + ((input.contents h).length - o) :=
    hlen
  have hafford := hr.afford
  rw [hm.contents] at h2
  refine ⟨hm.sound, hm.own, hr.room, hr.lt, ?_⟩
  omega

theorem Moved.trans {d d' : Bytes} {r r' : Wire.BufferReader} (h1 : Moved h input rest p d r h' p' o')
    (h2 : Moved h' input rest p' d' r' h'' p'' o'') : Moved h input rest p d' r' h'' p'' o'' := by
  refine ⟨h2.contents, ?_, h2.sound, h2.own, h1.same.trans h2.same, fun hb => h2.block (h1.block hb)⟩
  rw [h2.reader, h1.same.contents List.mem_cons_self]

/-- Where a handler stands that has passed something. -/
theorem Reading.passed_le {d d' : Bytes} (hr : Reading h input rest p o)
    (hp : Passed ⟨input.contents h, o⟩ d ⟨input.contents h, o'⟩ d') : o' ≤ input.used := by
  have hle := hp.le
  rw [← length_contents (sound_swap hr.sound)]
  exact hle

/-- A read to a buffer that has a block. -/
theorem Moved.of_reads {w : Error × Bytes × Wire.BufferReader} {r : Error × Heap × Buffer × Nat}
    (hu : Reads h input rest p o w r) (hb : p.data ≠ none) :
    Moved h input rest p w.2.1 w.2.2 r.2.1 r.2.2.1 r.2.2.2 :=
  ⟨hu.contents, hu.reader, hu.sound, (hu.own hb).2, hu.same, fun _ => (hu.own hb).1⟩

namespace MultibulkParser

variable {far : Bytes} {i : Int} {m : Wire.MultibulkParser}

/-- A new slice of the input is read while `p` waits. -/
theorem fresh_reading (hr : Reading h input rest p o) : Reading h input (p :: rest) .null o := by
  refine ⟨sound_null (sound_swap hr.sound), fun _ ha => (nomatch ha), fun a ha => ?_, hr.lt, ?_⟩
  · have hroom := hr.room a ha
    have hpa : p.data ≠ some a := by
      intro hpa
      have hown := hr.own a hpa
      rw [owners_cons, if_pos ha] at hown
      omega
    rw [owners_cons] at hroom
    rw [owners_cons, owners_cons, if_neg hpa]
    omega
  · have hlt := hr.lt
    show 0 + (input.used - o) + 4 < 2 ^ 32
    omega

/-- The line is appended, its number read behind it; `p` has a block then, where `fresh`. -/
structure LineRead (h : Heap) (input : Buffer) (rest : List Buffer) (p : Buffer) (fresh : Prop)
    (w : Error × Int × Option Bytes × Wire.BufferReader) (r : Error × Int × Option Buffer × Heap × Nat) : Prop where
  err : r.1 = w.1
  num : r.2.1 = w.2.1
  buf : ∃ p' d, r.2.2.1 = some p' ∧ w.2.2.1 = some d ∧
    Moved h input rest p d w.2.2.2 r.2.2.2.1 p' r.2.2.2.2 ∧ (r.1 = .ok → fresh → p'.data ≠ none)

/-- Both results, part by part. -/
theorem LineRead.parts {fresh : Prop} {w : Error × Int × Option Bytes × Wire.BufferReader}
    {r : Error × Int × Option Buffer × Heap × Nat} (hl : LineRead h input rest p fresh w r) :
    ∃ e len p1 h1 o1 d, r = (e, len, some p1, h1, o1) ∧ w = (e, len, some d, ⟨input.contents h, o1⟩) ∧
      Moved h input rest p d ⟨input.contents h, o1⟩ h1 p1 o1 ∧ (e = .ok → fresh → p1.data ≠ none) := by
  obtain ⟨e, len, pb, h1, o1⟩ := r
  obtain ⟨e', len', pb', rd⟩ := w
  obtain ⟨herr, hnum, p1, d, hp1, hd, hmoved, hblock⟩ := hl
  obtain rfl : e = e' := herr
  obtain rfl : len = len' := hnum
  obtain rfl : pb = some p1 := hp1
  obtain rfl : pb' = some d := hd
  obtain rfl : rd = ⟨input.contents h, o1⟩ := hmoved.reader
  exact ⟨e, len, p1, h1, o1, d, rfl, rfl, hmoved, hblock⟩

/-- A line is appended to `p`; the slice that is the line lives on. -/
structure Appended (h1 : Heap) (buf input p : Buffer) (rest : List Buffer) (line : Bytes) (h2 : Heap) (p' : Buffer) :
    Prop where
  sound : Sound h2 (buf :: input :: p' :: rest)
  own : Own p' (input :: rest)
  same : Same h1 h2 (buf :: input :: rest)
  contents : p'.contents h2 = p.contents h1 ++ line
  block : p.data ≠ none ∨ line ≠ [] → p'.data ≠ none

theorem appendLine_spec {h1 : Heap} {buf : Buffer} {line : Bytes} (hs : Sound h1 (buf :: input :: p :: rest))
    (hown : Own p (input :: rest)) (hd : buf.data = input.data) (hc : buf.contents h1 = line)
    (hroom : p.used + line.length + 4 < 2 ^ 32) :
    ∃ h2 p', appendLine h1 buf (some p) = (h2, some p') ∧ Appended h1 buf input p rest line h2 p' := by
  have hperm : ∀ q : Buffer, (buf :: input :: q :: rest).Perm (q :: buf :: input :: rest) := fun q =>
    (show ([buf, input] ++ q :: rest).Perm (q :: ([buf, input] ++ rest)) from List.perm_middle)
  have hown1 : Own p (buf :: input :: rest) := by
    intro x hx
    have hown := hown x hx
    rw [owners_cons] at hown ⊢
    rw [owners_cons, hd]
    omega
  obtain ⟨h2, p', he, hs2, hown2, hsame, hpc, hpb⟩ := sound_appendBytes (sound_perm (hperm p) hs) hown1
    (show p.Affords line.length from hroom)
  refine ⟨h2, p', ?_, sound_perm (hperm p').symm hs2, fun x hx => ?_, hsame, hpc, hpb⟩
  · unfold appendLine
    dsimp only
    rw [hc, he]
  · have hown := hown2 x hx
    rw [owners_cons] at hown
    omega

/-- `readInt32` on a reply. -/
theorem readInt32_view (hr : Reading h input rest p o) (ho : o ≤ input.used) (far : Bytes) (i : Int) :
    LineRead h input rest p True
      (Wire.MultibulkParser.readInt32 (input.behind h far) i ⟨input.contents h, o⟩ (some (p.contents h)))
      (readInt32 far i h input o (some p)) := by
  have hfresh := fresh_reading hr
  have hu := BufferReader.reads_until hfresh LF
  have hw := hr.within ho
  rw [show Buffer.null.contents h = [] from rfl] at hu
  unfold readInt32 Wire.MultibulkParser.readInt32
  rcases hx : BufferReader.readUntil h input o .null LF 1 with ⟨e, h1, buf, o1⟩
  rcases hW : (⟨input.contents h, o⟩ : Wire.BufferReader).readUntil [] LF 1 with ⟨e', line, r⟩
  rw [hx, hW] at hu
  obtain rfl : e = e' := hu.err
  obtain rfl : r = ⟨input.contents h, o1⟩ := hu.reader
  have hsame1 : Same h h1 (input :: p :: rest) := hu.same
  have hs1 : Sound h1 (buf :: input :: p :: rest) := hu.sound
  -- where there is no line, the slice is dropped as it is
  have hdrop : Moved h input rest p (p.contents h) ⟨input.contents h, o1⟩ (buf.destroy h1) p o1 := by
    obtain ⟨hs2, hsame2⟩ := sound_release hs1
    have hsame := hsame1.trans hsame2
    exact ⟨hsame.contents (List.mem_cons_of_mem _ List.mem_cons_self), rfl, sound_swap hs2, hr.own,
      hsame.mono (by simp), id⟩
  cases e with
  | ok =>
    obtain ⟨hpos, hoff⟩ := line_read hw hW
    have hoff : o1 = o + line.length := hoff
    have ho1 : o1 ≤ input.used := hu.le ho
    have hafford := hr.afford
    obtain ⟨h2, p', happ, ha⟩ := appendLine_spec hs1 hr.own (hu.slice rfl rfl).1
      (show buf.contents h1 = line from hu.contents) (by omega)
    have hnum := line_number hw hu hW ha.sound (ha.same.mono (by simp)) far
    obtain ⟨hs3, hsame3⟩ := sound_release ha.sound
    have hp' : p' ∈ input :: p' :: rest := List.mem_cons_of_mem _ List.mem_cons_self
    dsimp only
    rw [happ]
    refine ⟨rfl, hnum, p', p.contents h ++ line, rfl, rfl,
      ⟨?_, rfl, sound_swap hs3, ha.own, ?_, fun hb => ha.block (Or.inl hb)⟩,
      fun _ _ => ha.block (Or.inr (List.ne_nil_of_length_pos hpos))⟩
    · show p'.contents (buf.destroy h2) = _
      rw [show p'.contents (buf.destroy h2) = p'.contents h2 from hsame3.contents hp', ha.contents,
        hsame1.contents (List.mem_cons_of_mem input (List.mem_cons_self (a := p)))]
    · exact ((hsame1.mono (by simp)).trans (ha.same.mono (by simp))).trans (hsame3.mono (by simp))
  | notFound => exact ⟨rfl, rfl, p, p.contents h, rfl, rfl, hdrop, fun he => (nomatch he)⟩
  | _ => exact ⟨rfl, rfl, p, p.contents h, rfl, rfl, hdrop, fun he => (nomatch he)⟩

theorem readLen_view (hr : Reading h input rest p o) (ho : o ≤ input.used) (far : Bytes) (i : Int) :
    LineRead h input rest p (i ≠ 0 → p.data ≠ none)
      (Wire.MultibulkParser.readLen (input.behind h far) i ⟨input.contents h, o⟩ (some (p.contents h)))
      (readLen far i h input o (some p)) := by
  unfold readLen Wire.MultibulkParser.readLen
  by_cases h0 : i = 0
  · rw [if_pos h0, if_pos h0]
    obtain ⟨herr, hnum, p', d, h1, h2, hm, hb⟩ := readInt32_view hr ho far i
    exact ⟨herr, hnum, p', d, h1, h2, hm, fun he _ => hb he trivial⟩
  · rw [if_neg h0, if_neg h0]
    exact ⟨rfl, rfl, p, _, rfl, rfl, .refl hr, fun _ hb => hb h0⟩

/-- What a reply handler leaves: `w` is what `Wire` says. -/
structure Responds (h : Heap) (input : Buffer) (rest : List Buffer) (p : Buffer)
    (w : Error × Wire.MultibulkParser × Bytes × Wire.BufferReader)
    (r : Error × Wire.MultibulkParser × Heap × Buffer × Nat) : Prop where
  err : r.1 = w.1
  counters : r.2.1 = w.2.1
  moved : Moved h input rest p w.2.2.1 w.2.2.2 r.2.2.1 r.2.2.2.1 r.2.2.2.2
  block : r.2.1.bulkLen ≠ 0 → r.2.2.2.1.data ≠ none

theorem Responds.after {w : Error × Wire.MultibulkParser × Bytes × Wire.BufferReader}
    {r : Error × Wire.MultibulkParser × Heap × Buffer × Nat} {d : Bytes} {q : Wire.BufferReader}
    (hm : Moved h input rest p d q h' p' o') (hr : Responds h' input rest p' w r) : Responds h input rest p w r :=
  ⟨hr.err, hr.counters, hm.trans hr.moved, hr.block⟩

/-- An item's bytes are read to a buffer that has a block. -/
theorem read_body (hr : Reading h input rest p o) (ho : o ≤ input.used) (hb : p.data ≠ none) {n : Nat} (hn : n ≠ 0)
    {e e' : Error} {d : Bytes} {r : Wire.BufferReader} (hx : BufferReader.read h input o p n = (e, h', p', o'))
    (hW : (⟨input.contents h, o⟩ : Wire.BufferReader).read (p.contents h) n = (e', d, r)) :
    e = e' ∧ Moved h input rest p d r h' p' o' ∧ Reading h' input rest p' o' ∧ o' ≤ input.used := by
  have hread := BufferReader.reads_read hr n
  have hpassed := read_passed (hr.within ho) (p.contents h) hn
  have hmoved := Moved.of_reads hread hb
  rw [hx, hW] at hread hmoved
  rw [hW] at hpassed
  obtain rfl : r = ⟨input.contents h, o'⟩ := hread.reader
  exact ⟨hread.err, hmoved, hmoved.reading hr hpassed, hr.passed_le hpassed⟩

theorem responseLoop_view (far : Bytes) (n : Nat) : ∀ (m : Wire.MultibulkParser) (h : Heap) (p : Buffer) (o : Nat),
    Reading h input rest p o → o ≤ input.used → m.Counting → (m.bulkLen ≠ 0 → p.data ≠ none) →
      Responds h input rest p
        (Wire.MultibulkParser.responseLoop (input.behind h far) n m (p.contents h) ⟨input.contents h, o⟩)
        (responseLoop far input n m h p o) := by
  induction n with
  | zero =>
    intro m h p o hr _ _ hb
    exact ⟨rfl, rfl, .refl hr, hb⟩
  | succ n ih =>
    intro m h p o hr ho hm hb
    have hw := hr.within ho
    have hline := readLen_view hr ho far m.bulkLen
    have hp := Wire.MultibulkParser.readLen_passed (input.behind h far) hw m.bulkLen (p.contents h)
    obtain ⟨hlt, hpos⟩ := Wire.MultibulkParser.readLen_counting (input.behind h far) (r := ⟨input.contents h, o⟩) hm
      (some (p.contents h))
    have hfail := Wire.MultibulkParser.readLen_failed (input.behind h far) (r := ⟨input.contents h, o⟩) m.bulkLen
      (some (p.contents h))
    obtain ⟨e, len, p1, h1, o1, d, hx, hW, hmoved, hblock⟩ := hline.parts
    rw [hW] at hp hlt hpos hfail
    rw [responseLoop, Wire.MultibulkParser.responseLoop, hx, hW]
    have hr1 : Reading h1 input rest p1 o1 := hmoved.reading hr hp
    have ho1 : o1 ≤ input.used := hr.passed_le hp
    -- the rounds that are left, from wherever the round comes to
    have hround : ∀ {h' : Heap} {p' : Buffer} {o' : Nat} {d' : Bytes},
        Moved h input rest p d' ⟨input.contents h, o'⟩ h' p' o' → Reading h' input rest p' o' → o' ≤ input.used →
        let m' : Wire.MultibulkParser := { m with multibulkIndex := m.multibulkIndex + 1, bulkLen := 0 }
        Responds h input rest p
          (Wire.MultibulkParser.responseLoop (input.behind h far) n m' d' ⟨input.contents h, o'⟩)
          (responseLoop far input n m' h' p' o') := by
      intro h' p' o' d' hm' hr' ho'
      have hrest := ih { m with multibulkIndex := m.multibulkIndex + 1, bulkLen := 0 } h' p' o' hr' ho'
        counting_reset (fun h0 => absurd rfl h0)
      rw [hm'.same.contents List.mem_cons_self, hm'.same.behind List.mem_cons_self far, hm'.contents] at hrest
      exact hrest.after hm'
    cases e with
    | ok =>
      have hb1 : p1.data ≠ none := hblock rfl hb
      dsimp only [Option.getD_some]
      by_cases hitem : m.bulkLen = 0 ∧ len ≤ 0
      · -- the line is the item
        rw [if_pos hitem, if_pos hitem]
        exact hround hmoved hr1 ho1
      · rw [if_neg hitem, if_neg hitem]
        rcases hx2 : BufferReader.read h1 input o1 p1 (readSize len) with ⟨e2, h2, p2, o2⟩
        rcases hW2 : (⟨input.contents h, o1⟩ : Wire.BufferReader).read d (readSize len) with ⟨e2', d2, r2⟩
        have hW1 := hW2
        rw [← hmoved.contents, ← hmoved.same.contents List.mem_cons_self] at hW1
        obtain ⟨rfl, hmoved2, hr2, ho2⟩ := read_body hr1 ho1 hb1
          (Wire.MultibulkParser.readSize_ne_zero (hpos hitem) hlt) hx2 hW1
        have hb2 : p2.data ≠ none := hmoved2.block hb1
        have hmoved2 := hmoved.trans hmoved2
        obtain rfl : r2 = ⟨input.contents h, o2⟩ := hmoved2.reader
        cases e2 with
        | ok => exact hround hmoved2 hr2 ho2
        | outOfBound => exact ⟨rfl, rfl, hmoved2, fun _ => hb2⟩
        | _ => exact ⟨rfl, rfl, hmoved2, fun _ => hb2⟩
    | _ =>
      obtain rfl : len = 0 := (hfail Error.noConfusion).2
      exact ⟨rfl, rfl, hmoved, fun h0 => absurd rfl h0⟩

/-- The count line of an array is read, or was before; a bulk string has none. -/
theorem readCount_view (hr : Reading h input rest p o) (ho : o ≤ input.used) (far : Bytes) (m : Wire.MultibulkParser) :
    LineRead h input rest p False
      (Wire.MultibulkParser.readCount (input.behind h far) m (p.contents h) ⟨input.contents h, o⟩)
      (readCount far m h input o p) ∧
      Passed ⟨input.contents h, o⟩ (p.contents h)
        (Wire.MultibulkParser.readCount (input.behind h far) m (p.contents h) ⟨input.contents h, o⟩).2.2.2
        ((Wire.MultibulkParser.readCount (input.behind h far) m (p.contents h)
          ⟨input.contents h, o⟩).2.2.1.getD (p.contents h)) := by
  have hw := hr.within ho
  have hnothing : ∀ i, LineRead h input rest p False (.ok, i, some (p.contents h), ⟨input.contents h, o⟩)
      (.ok, i, some p, h, o) :=
    fun _ => ⟨rfl, rfl, p, _, rfl, rfl, .refl hr, fun _ hno => hno.elim⟩
  unfold readCount Wire.MultibulkParser.readCount
  rw [BufferReader.current_view (sound_swap hr.sound)]
  by_cases h0 : m.multibulkLen = 0
  · rw [if_pos h0, if_pos h0]
    by_cases h42 : BufferReader.current h input o = 42
    · rw [if_pos h42, if_pos h42]
      obtain ⟨herr, hnum, p', d, h1, h2, hmoved, _⟩ := readInt32_view hr ho far m.multibulkLen
      exact ⟨⟨herr, hnum, p', d, h1, h2, hmoved, fun _ hno => hno.elim⟩,
        Wire.MultibulkParser.readInt32_passed _ hw _ _⟩
    · rw [if_neg h42, if_neg h42]
      exact ⟨hnothing 1, .refl hw.le _⟩
  · rw [if_neg h0, if_neg h0]
    exact ⟨hnothing _, .refl hw.le _⟩

theorem handleResponse_view (hr : Reading h input rest p o) (ho : o ≤ input.used) {m : Wire.MultibulkParser}
    (hm : m.Counting) (hb : m.bulkLen ≠ 0 → p.data ≠ none) (far : Bytes) :
    Responds h input rest p
      (Wire.MultibulkParser.handleResponse (input.behind h far) m (p.contents h) ⟨input.contents h, o⟩)
      (handleResponse far m h input o p) := by
  obtain ⟨hline, hp⟩ := readCount_view hr ho far m
  obtain ⟨e, len, p1, h1, o1, d, hx, hW, hmoved, _⟩ := hline.parts
  rw [hW] at hp
  unfold handleResponse Wire.MultibulkParser.handleResponse
  rw [hx, hW]
  cases e with
  | ok =>
    have hm1 : Counting { m with multibulkLen := len } := hm
    have hloop := responseLoop_view far (len - m.multibulkIndex).toNat { m with multibulkLen := len } h1 p1 o1
      (hmoved.reading hr hp) (hr.passed_le hp) hm1 (fun h0 => hmoved.block (hb h0))
    rw [hmoved.same.contents List.mem_cons_self, hmoved.same.behind List.mem_cons_self far, hmoved.contents] at hloop
    exact hloop.after hmoved
  | _ => exact ⟨rfl, rfl, hmoved, fun h0 => hmoved.block (hb h0)⟩

end MultibulkParser

/-- What a handler leaves, in either mode. -/
structure Left (h : Heap) (input : Buffer) (rest : List Buffer) (d : Bytes) (r : Wire.BufferReader)
    (h' : Heap) (p' : Buffer) (o' : Nat) : Prop where
  contents : p'.contents h' = d
  reader : r = ⟨input.contents h, o'⟩
  sound : Sound h' (p' :: input :: rest)
  same : Same h h' (input :: rest)

theorem Moved.left {d : Bytes} {r : Wire.BufferReader} (hm : Moved h input rest p d r h' p' o') :
    Left h input rest d r h' p' o' := ⟨hm.contents, hm.reader, hm.sound, hm.same⟩

/-- A line reply; `resp` may be a share of the input afterwards. -/
theorem InlineParser.handleResponse_view (hr : Reading h input rest p o) :
    (InlineParser.handleResponse h input o p).1 =
        (Wire.InlineParser.handleResponse (p.contents h) ⟨input.contents h, o⟩).1 ∧
      Left h input rest (Wire.InlineParser.handleResponse (p.contents h) ⟨input.contents h, o⟩).2.1
        (Wire.InlineParser.handleResponse (p.contents h) ⟨input.contents h, o⟩).2.2
        (InlineParser.handleResponse h input o p).2.1 (InlineParser.handleResponse h input o p).2.2.1
        (InlineParser.handleResponse h input o p).2.2.2 ∧
      ((InlineParser.handleResponse h input o p).1 ≠ .ok → (InlineParser.handleResponse h input o p).2.2.1 = p) := by
  have hu := BufferReader.reads_until hr LF
  unfold handleResponse Wire.InlineParser.handleResponse
  rcases hx : BufferReader.readUntil h input o p LF 1 with ⟨e, h1, p1, o1⟩
  rcases hW : (⟨input.contents h, o⟩ : Wire.BufferReader).readUntil (p.contents h) LF 1 with ⟨e', d, r⟩
  rw [hx, hW] at hu
  obtain rfl : e = e' := hu.err
  have hleft : Left h input rest d r h1 p1 o1 := ⟨hu.contents, hu.reader, hu.sound, hu.same⟩
  have hfail : e ≠ .ok → p1 = p := hu.failed
  cases e with
  | notFound => exact ⟨rfl, hleft, fun _ => hfail Error.noConfusion⟩
  | _ => exact ⟨rfl, hleft, fun he => absurd rfl he⟩

namespace CmdParser

variable {P : CmdParser} {resp : Buffer}

/-- Between two calls. -/
structure Between (h : Heap) (P : CmdParser) (resp : Buffer) (rest : List Buffer) : Prop where
  reading : Reading h P.inputb rest resp 0
  settled : (P.view h).Settled
  block : P.multibulkParser.bulkLen ≠ 0 → resp.data ≠ none

/-- What a call leaves: `w` is what `Wire` says. -/
structure Parsed (h : Heap) (P : CmdParser) (rest : List Buffer) (w : Error × Wire.CmdParser × Bytes)
    (r : Error × Heap × CmdParser × Buffer) : Prop where
  err : r.1 = w.1
  view : r.2.2.1.view r.2.1 = w.2.1
  contents : r.2.2.2.contents r.2.1 = w.2.2
  sound : Sound r.2.1 (r.2.2.2 :: r.2.2.1.inputb :: rest)
  same : Same h r.2.1 (P.inputb :: rest)
  data : r.2.2.1.inputb.data = P.inputb.data
  size : r.2.2.1.inputb.size = P.inputb.size
  advance : r.2.2.1.inputb.used ≤ P.inputb.used
  waits : r.1 ≠ .ok → Own r.2.2.2 (r.2.2.1.inputb :: rest) ∧
    (r.2.2.1.multibulkParser.bulkLen ≠ 0 → r.2.2.2.data ≠ none)

theorem own_input {input' : Buffer} (hown : Own p (input :: rest)) (hd : input'.data = input.data) :
    Own p (input' :: rest) := by
  intro a ha
  have ho := hown a ha
  rw [owners_cons] at ho ⊢
  rwa [hd]

/-- The end of a call, in either mode. -/
theorem parsed_handOver {mode type : ParseType} {m0 m : Wire.MultibulkParser} {e : Error} {d : Bytes}
    (hr : Reading h input rest resp 0) (hleft : Left h input rest d ⟨input.contents h, o⟩ h' p' o)
    (ho : o ≤ input.used)
    (hwaits : e ≠ .ok → Own p' (input :: rest) ∧ (m.bulkLen ≠ 0 → p'.data ≠ none)) :
    Parsed h ⟨mode, m0, input, 0⟩ rest
      (e, (⟨type, m, input.contents h, 0⟩ : Wire.CmdParser).handOver ⟨input.contents h, o⟩, d)
      (e, h', (⟨type, m, input, 0⟩ : CmdParser).handOver o, p') := by
  have hc := hleft.same.contents (List.mem_cons_self (a := input))
  have hlt := hr.lt
  obtain ⟨hview, hs, hP⟩ := handOver_view (sound_swap hleft.sound) ho hlt type m
  rw [hP] at hview hs ⊢
  rw [hc] at hview
  refine ⟨rfl, hview, hleft.contents, sound_swap hs, hleft.same, rfl, rfl, ?_, fun he => ?_⟩
  · show input.size - (input.offset + o) ≤ input.size - input.offset
    omega
  · obtain ⟨hown, hblock⟩ := hwaits he
    exact ⟨own_input hown rfl, hblock⟩

theorem parseResponse_view (hb : Between h P resp rest) (far : Bytes) :
    Parsed h P rest ((P.view h).parseResponse (P.inputb.behind h far) (resp.contents h))
      (parseResponse far h P resp) := by
  obtain ⟨hr, ⟨h0, hm⟩, hblock⟩ := hb
  obtain ⟨mode, m, input, br⟩ := P
  obtain rfl : br = 0 := h0
  have hm : m.Counting := hm
  have hr : Reading h input rest resp 0 := hr
  have hsi := sound_swap hr.sound
  have hw : Within ⟨input.contents h, 0⟩ := hr.within (Nat.zero_le _)
  have hrefl : ∀ e, Parsed h ⟨mode, m, input, 0⟩ rest (e, ⟨mode, m, input.contents h, 0⟩, resp.contents h)
      (e, h, ⟨mode, m, input, 0⟩, resp) :=
    fun e => ⟨rfl, rfl, rfl, hr.sound, .refl _ _, rfl, rfl, Nat.le_refl _, fun _ => ⟨hr.own, hblock⟩⟩
  show Parsed h _ rest ((⟨mode, m, input.contents h, 0⟩ : Wire.CmdParser).parseResponse _ _) _
  simp only [parseResponse, Wire.CmdParser.parseResponse, ← BufferReader.eof_view hsi,
    BufferReader.current_view hsi]
  by_cases hend : BufferReader.eof input 0 = true
  · rw [if_pos hend, if_pos hend]
    exact hrefl .tryAgain
  rw [if_neg hend, if_neg hend]
  generalize (if mode = .none then Wire.CmdParser.responseType (BufferReader.current h input 0) else mode) = type
  by_cases hnone : type = .none
  · rw [if_pos hnone, if_pos hnone]
    exact hrefl .unknown
  rw [if_neg hnone, if_neg hnone]
  by_cases hmulti : type = .multibulk
  · rw [if_pos hmulti, if_pos hmulti]
    obtain ⟨herr, hcounters, hmoved, hb'⟩ := MultibulkParser.handleResponse_view hr (Nat.zero_le _) hm hblock far
    obtain ⟨hp, _⟩ := Wire.MultibulkParser.handleResponse_passed (input.behind h far) hw hm (resp.contents h)
    rcases hx : MultibulkParser.handleResponse far m h input 0 resp with ⟨e, m1, h1, p1, o1⟩
    rcases hW : Wire.MultibulkParser.handleResponse (input.behind h far) m (resp.contents h) ⟨input.contents h, 0⟩
      with ⟨e', m', d, r⟩
    rw [hx, hW] at herr hcounters hmoved
    rw [hx] at hb'
    rw [hW] at hp
    obtain rfl : e = e' := herr
    obtain rfl : m1 = m' := hcounters
    obtain rfl : r = ⟨input.contents h, o1⟩ := hmoved.reader
    obtain rfl : p1.contents h1 = d := hmoved.contents
    exact parsed_handOver hr hmoved.left (hr.passed_le hp) fun _ => ⟨hmoved.own, hb'⟩
  · rw [if_neg hmulti, if_neg hmulti]
    obtain ⟨herr, hleft, hfail⟩ := InlineParser.handleResponse_view hr
    have hp := Wire.InlineParser.handleResponse_passed hw (resp.contents h)
    rcases hx : InlineParser.handleResponse h input 0 resp with ⟨e, h1, p1, o1⟩
    rcases hW : Wire.InlineParser.handleResponse (resp.contents h) ⟨input.contents h, 0⟩ with ⟨e', d, r⟩
    rw [hx, hW] at herr hleft
    rw [hx] at hfail
    rw [hW] at hp
    obtain rfl : e = e' := herr
    obtain rfl : r = ⟨input.contents h, o1⟩ := hleft.reader
    obtain rfl : p1.contents h1 = d := hleft.contents
    refine parsed_handOver hr hleft (hr.passed_le hp) fun he => ?_
    obtain rfl : p1 = resp := hfail he
    exact ⟨hr.own, hblock⟩

end CmdParser

/-! ## A run -/

structure Replies where
  heap : Heap
  parser : CmdParser
  resp : Buffer
  /-- What `resp` held at each `OK`. -/
  delivered : List Bytes

inductive ReplyEvent where
  /-- Bytes read to the input's tail, `AppendSize` after them. -/
  | receive (l : Bytes)
  | appendCapacity (n : Nat)
  /-- `ParseResponse`; `far` is what lies behind the input's block. -/
  | parseResponse (far : Bytes)
  deriving DecidableEq, Repr

def ReplyEvent.bytes : ReplyEvent → Bytes
  | .receive l => l
  | _ => []

namespace Replies

def start (h : Heap) : Replies := ⟨h, .init, .null, []⟩

def step (s : Replies) : ReplyEvent → Replies
  | .receive l =>
    let h := s.parser.inputb.writeTail s.heap l
    { s with heap := h, parser := { s.parser with inputb := (s.parser.inputb.appendSize h l.length).2 } }
  | .appendCapacity n =>
    match s.parser.inputb.appendCapacity s.heap n with
    | (_, h, b) => { s with heap := h, parser := { s.parser with inputb := b } }
  | .parseResponse far =>
    match s.parser.parseResponse far s.heap s.resp with
    | (.ok, h, p, resp) => ⟨(resp.clear h).1, p.reset, (resp.clear h).2, s.delivered ++ [resp.contents h]⟩
    | (_, h, p, resp) => { s with heap := h, parser := p, resp := resp }

/-- The bytes fit where they are read to, fewer than 2^31 are unread, and a block can be as
    large as it is asked for. -/
def Fits (s : Replies) : ReplyEvent → Prop
  | .receive l => s.parser.inputb.size + l.length ≤ s.parser.inputb.capacity s.heap ∧
      s.parser.inputb.used + l.length < 2 ^ 31 ∧ s.resp.used + s.parser.inputb.used + l.length + 4 < 2 ^ 32
  | .appendCapacity n => s.parser.inputb.Affords n
  | .parseResponse _ => True

instance (s : Replies) : (e : ReplyEvent) → Decidable (s.Fits e)
  | .receive _ => inferInstanceAs (Decidable (_ ∧ _ ∧ _))
  | .appendCapacity _ => inferInstanceAs (Decidable (_ < _))
  | .parseResponse _ => inferInstanceAs (Decidable True)

/-- Replies handed on, `resp`, unread input. -/
def stream (s : Replies) : Bytes := s.delivered.flatten ++ s.resp.contents s.heap ++ s.parser.inputb.contents s.heap

/-- Others may look at the input's block, nobody else at that of `resp`. -/
structure Kept (rest : List Buffer) (s : Replies) : Prop where
  between : s.parser.Between s.heap s.resp rest

variable {s : Replies}

theorem kept_start (hs : Sound h rest) : Kept rest (start h) :=
  ⟨⟨⟨sound_null (sound_null hs), fun _ ha => (nomatch ha), fun _ ha => (nomatch ha),
    (by decide : (0 : Nat) < 2 ^ 31), (by decide : (0 : Nat) + 0 + 4 < 2 ^ 32)⟩,
    Wire.CmdParser.settled_init, fun h0 => absurd rfl h0⟩⟩

theorem step_receive (hk : Kept rest s) {l : Bytes} (hf : s.Fits (.receive l)) :
    Kept rest (s.step (.receive l)) ∧ (s.step (.receive l)).stream = s.stream ++ l := by
  obtain ⟨hr, hset, hblock⟩ := hk.between
  obtain ⟨hfree, hlt, hafford⟩ := hf
  obtain ⟨_, hrec⟩ := sound_receive (sound_swap hr.sound) hfree
  have hinput : (s.step (.receive l)).parser.inputb =
      { s.parser.inputb with size := s.parser.inputb.size + l.length } := hrec.place
  have hresp : s.resp.contents (s.step (.receive l)).heap = s.resp.contents s.heap := hrec.apart hr.own
  have hle := ((sound_swap hr.sound).shaped s.parser.inputb List.mem_cons_self).offset_le
  have hused : (s.step (.receive l)).parser.inputb.used = s.parser.inputb.used + l.length := by
    rw [hinput]
    show s.parser.inputb.size + l.length - s.parser.inputb.offset =
      s.parser.inputb.size - s.parser.inputb.offset + l.length
    omega
  refine ⟨⟨⟨⟨sound_swap hrec.sound, CmdParser.own_input hr.own (by rw [hinput]), fun a ha => ?_, ?_, ?_⟩,
    ⟨hset.inputbr, hset.counting⟩, hblock⟩⟩, ?_⟩
  · rw [hinput] at ha ⊢
    exact hr.room a ha
  · rw [hused]
    exact hlt
  · rw [hused]
    show s.resp.used + (s.parser.inputb.used + l.length - 0) + 4 < 2 ^ 32
    omega
  · show s.delivered.flatten ++ s.resp.contents (s.step (.receive l)).heap ++ _ = _
    rw [hresp, show (s.step (.receive l)).parser.inputb.contents (s.step (.receive l)).heap = _ from hrec.contents,
      ← List.append_assoc]
    rfl

/-- The input and `resp` look at two blocks, also after the input has grown. -/
theorem grown_own {n : Nat} {b : Buffer} (hp : Own p (input :: rest)) (hg : Grown h input (p :: rest) n h' b)
    (hroom : ∀ a, input.data = some a → owners (input :: rest) a + 2 < 2 ^ 32) :
    Own p (b :: rest) ∧ ∀ a, b.data = some a → owners (b :: rest) a + 2 < 2 ^ 32 := by
  rcases hg.alone with rfl | halone
  · exact ⟨hp, hroom⟩
  · refine ⟨fun a ha => ?_, fun a ha => ?_⟩
    · have hno := hp a ha
      rw [owners_cons] at hno ⊢
      by_cases hba : b.data = some a
      · have hno' := halone a hba
        rw [owners_cons, if_pos ha] at hno'
        omega
      · rw [if_neg hba]
        omega
    · have hno := halone a ha
      rw [owners_cons] at hno ⊢
      rw [if_pos ha]
      omega

theorem step_grow (hk : Kept rest s) {n : Nat} (hf : s.Fits (.appendCapacity n)) :
    Kept rest (s.step (.appendCapacity n)) ∧ (s.step (.appendCapacity n)).stream = s.stream := by
  obtain ⟨hr, hset, hblock⟩ := hk.between
  obtain ⟨h', b, he, hg⟩ := sound_grow (sound_swap hr.sound) hf
  have hstep : s.step (.appendCapacity n) = { s with heap := h', parser := { s.parser with inputb := b } } := by
    simp only [step, he]
  obtain ⟨hresp, hroom⟩ := grown_own hr.own hg hr.room
  rw [hstep]
  have hlt := hr.lt
  have hafford := hr.afford
  refine ⟨⟨⟨⟨sound_swap hg.sound, hresp, hroom, ?_, ?_⟩, ⟨hset.inputbr, hset.counting⟩, hblock⟩⟩, ?_⟩
  · show b.used < 2 ^ 31
    rw [hg.used]
    exact hlt
  · show s.resp.used + (b.used - 0) + 4 < 2 ^ 32
    rw [hg.used]
    exact hafford
  · unfold stream
    dsimp only
    rw [hg.contents, hg.same.contents List.mem_cons_self]

/-- What is received is fed to the parser; `resp` does not see it. -/
theorem receive_view (hk : Kept rest s) {l : Bytes} (hf : s.Fits (.receive l)) :
    (s.step (.receive l)).resp.contents (s.step (.receive l)).heap = s.resp.contents s.heap ∧
      (s.step (.receive l)).parser.view (s.step (.receive l)).heap = (s.parser.view s.heap).feed l := by
  have hr := hk.between.reading
  obtain ⟨_, hrec⟩ := sound_receive (sound_swap hr.sound) hf.1
  have hin : (s.step (.receive l)).parser.inputb.contents (s.step (.receive l)).heap =
      s.parser.inputb.contents s.heap ++ l := hrec.contents
  refine ⟨hrec.apart hr.own, ?_⟩
  unfold CmdParser.view
  rw [hin]
  rfl

theorem grow_view (hk : Kept rest s) {n : Nat} (hf : s.Fits (.appendCapacity n)) :
    (s.step (.appendCapacity n)).resp.contents (s.step (.appendCapacity n)).heap = s.resp.contents s.heap ∧
      (s.step (.appendCapacity n)).parser.view (s.step (.appendCapacity n)).heap = s.parser.view s.heap := by
  have hr := hk.between.reading
  obtain ⟨h', b, he, hg⟩ := sound_grow (sound_swap hr.sound) hf
  have hstep : s.step (.appendCapacity n) = { s with heap := h', parser := { s.parser with inputb := b } } := by
    simp only [step, he]
  rw [hstep]
  refine ⟨hg.same.contents List.mem_cons_self, ?_⟩
  unfold CmdParser.view
  rw [hg.contents]

/-- What a call leaves, whatever it returns. -/
structure Called (rest : List Buffer) (s : Replies) (e : Error) (h : Heap) (p : CmdParser) (resp : Buffer) : Prop where
  sound : Sound h (resp :: p.inputb :: rest)
  room : ∀ a, p.inputb.data = some a → owners (p.inputb :: rest) a + 2 < 2 ^ 32
  settled : (p.view h).Settled
  bytes : resp.contents h ++ p.inputb.contents h = s.resp.contents s.heap ++ s.parser.inputb.contents s.heap
  lt : p.inputb.used < 2 ^ 31
  afford : resp.used + p.inputb.used + 4 < 2 ^ 32
  waits : e ≠ .ok → Own resp (p.inputb :: rest) ∧ (p.multibulkParser.bulkLen ≠ 0 → resp.data ≠ none)

theorem called_of (hk : Kept rest s) {w : Error × Wire.CmdParser × Bytes} {e : Error} {p : CmdParser} {resp : Buffer}
    (hp : CmdParser.Parsed s.heap s.parser rest w (e, h, p, resp)) (hset : w.2.1.Settled)
    (hbytes : w.2.2 ++ w.2.1.inputb = s.resp.contents s.heap ++ s.parser.inputb.contents s.heap) :
    Called rest s e h p resp := by
  have hb := hk.between
  have hlt := hb.reading.lt
  have hafford := hb.reading.afford
  rw [← hp.view] at hset
  rw [← hp.view, ← hp.contents] at hbytes
  have hs : Sound h (resp :: p.inputb :: rest) := hp.sound
  have hadv : p.inputb.used ≤ s.parser.inputb.used := hp.advance
  have hsum : resp.used + p.inputb.used = s.resp.used + s.parser.inputb.used := by
    have hl := congrArg List.length hbytes
    have hl : (resp.contents h ++ p.inputb.contents h).length =
      (s.resp.contents s.heap ++ s.parser.inputb.contents s.heap).length := hl
    rw [List.length_append, List.length_append, length_contents hs, length_contents (sound_swap hs),
      length_contents hb.reading.sound, length_contents (sound_swap hb.reading.sound)] at hl
    exact hl
  have hdata : p.inputb.data = s.parser.inputb.data := hp.data
  refine ⟨hs, fun a ha => ?_, hset, hbytes, Nat.lt_of_le_of_lt hadv hlt, by omega, hp.waits⟩
  rw [hdata] at ha
  have hroom := hb.reading.room a ha
  rw [owners_cons] at hroom ⊢
  rwa [hdata]

theorem called (hk : Kept rest s) {far : Bytes} {e : Error} {p : CmdParser} {resp : Buffer}
    (hx : s.parser.parseResponse far s.heap s.resp = (e, h, p, resp)) : Called rest s e h p resp := by
  have hb := hk.between
  have hp := CmdParser.parseResponse_view hb far
  obtain ⟨hset, hbytes⟩ := Wire.CmdParser.parseResponse_passed (s.parser.inputb.behind s.heap far) hb.settled
    (show (s.parser.inputb.contents s.heap).length < 2 ^ 31 by
      rw [length_contents (sound_swap hb.reading.sound)]
      exact hb.reading.lt) (s.resp.contents s.heap)
  rw [hx] at hp
  exact called_of hk hp hset hbytes

/-- `OK`: the reply is handed on, `resp` cleared and the parser reset. -/
theorem kept_answered {e : Error} {p : CmdParser} {resp : Buffer} (hc : Called rest s e h p resp) :
    let t : Replies := ⟨(resp.clear h).1, p.reset, (resp.clear h).2, s.delivered ++ [resp.contents h]⟩
    Kept rest t ∧ t.stream = s.stream := by
  obtain ⟨hs', hsame, hownr, hnil, _⟩ := sound_clear hc.sound
  have hin := hsame.contents (List.mem_cons_self (a := p.inputb))
  have hused : (resp.clear h).2.used = 0 := by rw [← length_contents hs', hnil]; rfl
  have hafford := hc.afford
  refine ⟨⟨⟨⟨hs', hownr, hc.room, hc.lt, ?_⟩, ⟨hc.settled.inputbr, counting_reset⟩, fun h0 => absurd rfl h0⟩⟩, ?_⟩
  · show (resp.clear h).2.used + (p.inputb.used - 0) + 4 < 2 ^ 32
    omega
  · show (s.delivered ++ [resp.contents h]).flatten ++ (resp.clear h).2.contents (resp.clear h).1 ++
      p.inputb.contents (resp.clear h).1 = s.delivered.flatten ++ s.resp.contents s.heap ++ _
    rw [hnil, hin, List.flatten_append, List.flatten_singleton, List.append_nil, List.append_assoc, hc.bytes,
      List.append_assoc]

theorem kept_waiting {e : Error} {p : CmdParser} {resp : Buffer} (hc : Called rest s e h p resp) (he : e ≠ .ok) :
    let t : Replies := { s with heap := h, parser := p, resp := resp }
    Kept rest t ∧ t.stream = s.stream := by
  obtain ⟨hownr, hblock⟩ := hc.waits he
  have hafford := hc.afford
  refine ⟨⟨⟨⟨hc.sound, hownr, hc.room, hc.lt, ?_⟩, hc.settled, hblock⟩⟩, ?_⟩
  · show resp.used + (p.inputb.used - 0) + 4 < 2 ^ 32
    omega
  · show s.delivered.flatten ++ resp.contents h ++ p.inputb.contents h = s.delivered.flatten ++ _ ++ _
    rw [List.append_assoc, hc.bytes, List.append_assoc]

theorem step_parse (hk : Kept rest s) (far : Bytes) :
    Kept rest (s.step (.parseResponse far)) ∧ (s.step (.parseResponse far)).stream = s.stream := by
  rcases hx : s.parser.parseResponse far s.heap s.resp with ⟨e, h, p, resp⟩
  have hc := called hk hx
  rw [step, hx]
  cases e with
  | ok => exact kept_answered hc
  | _ => exact kept_waiting hc Error.noConfusion

theorem step_stream (hk : Kept rest s) (e : ReplyEvent) (hf : s.Fits e) :
    Kept rest (s.step e) ∧ (s.step e).stream = s.stream ++ e.bytes := by
  cases e with
  | receive l => exact step_receive hk hf
  | appendCapacity n =>
    obtain ⟨hkept, hstream⟩ := step_grow hk hf
    exact ⟨hkept, by rw [hstream]; exact (List.append_nil _).symm⟩
  | parseResponse far =>
    obtain ⟨hkept, hstream⟩ := step_parse hk far
    exact ⟨hkept, by rw [hstream]; exact (List.append_nil _).symm⟩

theorem run_stream (events : List ReplyEvent) :
    ∀ s, Kept rest s → Each step Fits s events →
      (events.foldl step s).stream = s.stream ++ events.flatMap ReplyEvent.bytes := by
  induction events with
  | nil => intro s _ _; exact (List.append_nil _).symm
  | cons e events ih =>
    intro s hk hf
    obtain ⟨hkept, hstep⟩ := step_stream hk e hf.1
    have hrest := ih _ hkept hf.2
    rw [hstep, List.append_assoc] at hrest
    exact hrest

/-- Whatever the bytes are and whatever the calls return: what was handed on, what `resp`
    holds and what is unread are the bytes received. -/
theorem reply_transparency (hs : Sound h rest) (events : List ReplyEvent) (hf : Each step Fits (start h) events) :
    let s := events.foldl step (start h)
    s.delivered.flatten ++ s.resp.contents s.heap ++ s.parser.inputb.contents s.heap =
      events.flatMap ReplyEvent.bytes :=
  run_stream events (start h) (kept_start hs) hf

/-- A status line, and an array that has its count only. -/
theorem reply_transparency_cut :
    let events := [ReplyEvent.appendCapacity 16, .receive [43, 79, 75, 13, 10, 42, 50, 13, 10], .parseResponse [],
      .parseResponse [], .appendCapacity 16]
    let s := events.foldl step (start (.start fun _ => some fun _ => 0))
    s.delivered.flatten ++ s.resp.contents s.heap ++ s.parser.inputb.contents s.heap =
      events.flatMap ReplyEvent.bytes :=
  have hs : Sound (.start fun _ => some fun _ => 0) [] := sound_start fun _ => Option.some_ne_none _
  reply_transparency hs _ ⟨by decide, by decide, by decide, by decide, by decide, trivial⟩

end Replies

end RedisProxy.Mem
