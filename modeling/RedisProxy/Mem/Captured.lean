/-
  RedisProxy.Mem.Captured — what `OK` says of a reply when memory runs out (cmd.cpp, buffer.cpp).

  A reply that is a line or a bulk string is appended to `resp` in one piece or two: its line,
  and for a bulk string its bytes. For want of memory the bytes are refused as a whole
  (`read_cases`): `Read` returns `Exhausted`, the call too, and the next one goes on from
  there. The line is another matter. `readInt32` drops the error of its `Append`, and
  `InlineParser::HandleResponse` returns `OK` for every error but `NotFound`.

  So the line is what a call must have memory for (`Granted`): it fits the block `resp` has, or
  a larger one can be had. Everything else may be refused, the growth of the input too.

  Proved:
  - `parse_cases`: a call that meets the condition is spared, or refused an item's bytes.
  - `ok_captures`: then, over every run, each `OK` is the next reply, whole, and the bytes of it
    are the ones consumed. `ok_without_line`: a run of each kind that fails.
-/

import RedisProxy.Mem.Replies
import RedisProxy.Mem.Spared
import RedisProxy.Wire.Partway

namespace RedisProxy.Mem

open Lib Lib.Runs Lib.Cells Lib.Decimal Lib.Pieces Wire

variable {h h' h1 : Heap} {input p b src : Buffer} {rest : List Buffer} {o n : Nat} {l : Bytes}

/-! ## What is refused -/

theorem appendBytes_cases (hf : Firm h (b :: rest)) (hown : Own b rest) (hlt : b.used + l.length < 2 ^ 32) :
    (b.capacity h < b.used + l.length ∧ h.supply h.next = none ∧ b.appendBytes h l = (.exhausted, h.denied, b)) ∨
      Spared h (b.appendBytes h l).2.1 := by
  rcases appended_cases hf hown hlt with hno | ⟨hgiven, h', b', he, ha⟩
  · exact Or.inl hno
  · right
    rw [he]
    intro k hk hk'
    have hnext : h'.next = _ := ha.next
    have hk' : k < h'.next := hk'
    by_cases hneed : b.capacity h < b.used + l.length
    · rw [if_pos hneed] at hnext
      obtain rfl : k = h.next := by omega
      exact hgiven hneed
    · rw [if_neg hneed] at hnext
      omega

/-- `Append( buffer, size )` is refused only where it copies. -/
theorem append_cases (hf : Firm h (b :: rest)) (hown : Own b rest) (hlt : b.used + src.used < 2 ^ 32) (n : Nat) :
    (b.data ≠ none ∧ b.capacity h < b.used + (if n = 0 then src.used else n) ∧ h.supply h.next = none ∧
      b.append h src n = (.exhausted, h.denied, b)) ∨ Spared h (b.append h src n).2.1 := by
  unfold Buffer.append
  by_cases hmuch : n ≠ 0 ∧ src.used < n
  · rw [if_pos hmuch]
    exact Or.inr (spared_idle rfl)
  rw [if_neg hmuch]
  dsimp only
  generalize (if n = 0 then src.used else n) = size
  cases hd : b.data with
  | none =>
    exact Or.inr (spared_idle (next_incr h src.data))
  | some a =>
    dsimp only
    by_cases hself : src.data = some a
    · rw [if_pos hself]
      exact Or.inr (spared_idle rfl)
    · rw [if_neg hself]
      have hle := length_contents_le h src
      have htake : ((src.contents h).take size).length ≤ min size src.used := by
        rw [List.length_take]
        omega
      refine (appendBytes_cases (l := (src.contents h).take size) hf hown (by omega)).imp (fun hno => ?_) id
      exact ⟨Option.some_ne_none a, by omega, hno.2⟩

namespace BufferReader

theorem next_tmpBuffer (h : Heap) (input : Buffer) (o : Nat) : (tmpBuffer h input o).1.next = h.next :=
  next_acquire h input.data

/-- A read to a buffer that has none shares the block. -/
theorem next_share (h : Heap) (input : Buffer) (o : Nat) (dst : Buffer) (hd : dst.data = none) (ch : Byte)
    (extend : Nat) : (readUntil h input o dst ch extend).2.1.next = h.next := by
  unfold readUntil
  split
  · rfl
  · have hnext := next_tmpBuffer h input o
    rcases he : tmpBuffer h input o with ⟨h1, tmp⟩
    rw [he] at hnext
    dsimp only
    split
    · exact (next_release h1 tmp.data).trans hnext
    · rename_i i _
      have happ : (dst.append h1 tmp (i + extend)).2.1.next = h1.next := by
        unfold Buffer.append
        split
        · rfl
        · rw [hd]
          exact next_incr h1 tmp.data
      unfold take
      rcases ha : dst.append h1 tmp (i + extend) with ⟨e, h2, d⟩
      rw [ha] at happ
      cases e <;> exact ((next_release h2 tmp.data).trans happ).trans hnext

/-- The end of a read is refused as a whole. -/
theorem take_cases (hr : Reading h.given input rest p o) (ho : o < input.used) (n : Nat) :
    ∃ h1 tmp, tmpBuffer h input o = (h1, tmp) ∧ tmp.contents h1 = (input.contents h).drop o ∧
      tmp.used = input.used - o ∧
      ((p.data ≠ none ∧ p.capacity h < p.used + (if n = 0 then input.used - o else n) ∧ h.supply h.next = none ∧
        ∃ h', take h1 tmp p o n = (.exhausted, h', p, o) ∧ Firm h' (p :: input :: rest) ∧
          Same h h' (p :: input :: rest)) ∨
        Spared h (take h1 tmp p o n).2.1) := by
  obtain ⟨hg, t, he, ht, hs, hsame, htc, htu⟩ := tmpBuffer_spec hr ho
  have htmp := tame_tmpBuffer h input o
  have hnext := next_tmpBuffer h input o
  have heq := htmp.same (spared_idle hnext)
  rcases hx : tmpBuffer h input o with ⟨h1, tmp⟩
  rw [hx] at heq hnext htmp
  rw [heq] at he
  obtain ⟨rfl, rfl⟩ := Prod.mk.inj he
  have ht : tmp = ⟨input.data, input.size, input.offset + o⟩ := ht
  have htu : tmp.used = input.used - o := htu
  have hnext : h1.next = h.next := hnext
  have hsupply : h1.supply = h.supply := htmp.supply
  have hsame : Same h h1 (p :: input :: rest) := same_given hsame
  have hf1 : Firm h1 (p :: tmp :: input :: rest) := firm_given (sound_swap hs)
  have hown : Own p (tmp :: input :: rest) := by
    intro a ha
    have hown := hr.own a ha
    rw [owners_cons] at hown ⊢
    rw [owners_cons, show tmp.data = input.data by rw [ht]]
    omega
  have hafford := hr.afford
  refine ⟨h1, tmp, rfl, htc, htu, ?_⟩
  rcases append_cases hf1 hown (show p.used + tmp.used < 2 ^ 32 by omega) n with ⟨hd, hneed, hnone, hno⟩ | hyes
  · left
    rw [hsame.capacity List.mem_cons_self, htu] at hneed
    rw [hsupply, hnext] at hnone
    obtain ⟨hf2, hsame2⟩ := firm_release (firm_swap hf1.denied)
    refine ⟨hd, hneed, hnone, h1.denied.release tmp.data, ?_, hf2, hsame.trans ((same_denied h1 _).trans hsame2)⟩
    unfold take
    rw [hno]
    rfl
  · right
    have happ := (tame_append h1 p tmp n).supply
    unfold take
    rcases hy : p.append h1 tmp n with ⟨e, h2, d⟩
    rw [hy] at hyes happ
    have hall : Spared h (h2.release tmp.data) :=
      ((spared_idle hnext).trans hsupply hyes).trans (happ.trans hsupply) (spared_idle (next_release h2 tmp.data))
    cases e <;> exact hall

/-- `Read` of an item's bytes. -/
theorem read_cases (hr : Reading h.given input rest p o) (n : Nat) :
    Spared h (read h input o p n).2.1 ∨
      ∃ h', read h input o p n = (.exhausted, h', p, o) ∧ Firm h' (p :: input :: rest) ∧
        Same h h' (p :: input :: rest) := by
  unfold read
  by_cases hend : eof input o = true
  · rw [if_pos hend]
    exact Or.inl (spared_idle rfl)
  rw [if_neg hend]
  by_cases hshort : input.used - o < n
  · rw [if_pos hshort]
    exact Or.inl (spared_idle rfl)
  rw [if_neg hshort]
  obtain ⟨h1, tmp, he, _, _, hcases⟩ := take_cases hr (lt_of_not_eof hend) n
  rw [he]
  exact hcases.symm.imp id fun hno => hno.2.2.2

end BufferReader

/-- The input's first line fits the block that `p` has, or a larger one can be had. -/
def LineGranted (h : Heap) (input p : Buffer) : Prop :=
  ∀ i ∈ memchr (input.contents h) LF, p.capacity h < p.used + (i + 1) → h.supply h.next ≠ none

instance (h : Heap) (input p : Buffer) : Decidable (LineGranted h input p) := by
  unfold LineGranted
  infer_instance

variable {far : Bytes}

/-- `ReadUntil` of a line reply, to what `resp` has. -/
theorem spared_readUntil (hr : Reading h.given input rest p 0) (hline : p.data ≠ none → LineGranted h input p) :
    Spared h (BufferReader.readUntil h input 0 p LF 1).2.1 := by
  unfold BufferReader.readUntil
  by_cases hend : BufferReader.eof input 0 = true
  · rw [if_pos hend]
    exact spared_idle rfl
  rw [if_neg hend]
  cases hf : memchr (input.contents h) LF with
  | none =>
    obtain ⟨h1, tmp, he, hc, _⟩ := BufferReader.take_cases hr (BufferReader.lt_of_not_eof hend) 0
    have hnext := BufferReader.next_tmpBuffer h input 0
    rw [he] at hnext ⊢
    dsimp only
    rw [hc, List.drop_zero, hf]
    exact spared_idle ((next_release h1 tmp.data).trans hnext)
  | some i =>
    obtain ⟨h1, tmp, he, hc, _, hcases⟩ := BufferReader.take_cases hr (BufferReader.lt_of_not_eof hend) (i + 1)
    rw [he]
    dsimp only
    rw [hc, List.drop_zero, hf]
    refine hcases.resolve_left fun ⟨hd, hneed, hnone, _⟩ => ?_
    rw [if_neg (Nat.succ_ne_zero i)] at hneed
    exact hline hd i hf hneed hnone

namespace MultibulkParser

open Wire.MultibulkParser (readSize)

theorem spared_readInt32 (hr : Reading h.given input rest p 0) (hline : LineGranted h input p) (i : Int) :
    Spared h (readInt32 far i h input 0 (some p)).2.2.2.1 := by
  have hfresh := fresh_reading hr
  have hu := BufferReader.reads_until hfresh LF
  have htame := BufferReader.tame_readUntil h input 0 .null LF 1
  have hnext := BufferReader.next_share h input 0 Buffer.null rfl LF 1
  have heq := htame.same (spared_idle hnext)
  unfold readInt32
  rcases hx : BufferReader.readUntil h input 0 .null LF 1 with ⟨e, h1, buf, o1⟩
  rw [hx] at htame hnext heq
  rw [heq] at hu
  have hnext : h1.next = h.next := hnext
  have hsupply : h1.supply = h.supply := htame.supply
  cases e with
  | ok =>
    -- the line is what the append is of
    rcases hW : (⟨input.contents h.given, 0⟩ : Wire.BufferReader).readUntil [] LF 1 with ⟨e', line, r⟩
    rw [show Buffer.null.contents h.given = [] from rfl, hW] at hu
    obtain rfl : Error.ok = e' := hu.err
    have hW : (Wire.BufferReader.after [] (input.contents h.given)).readUntil [] LF 1 = (.ok, line, r) := hW
    obtain ⟨_, l, s, hin, hl, hbuf, _⟩ := Wire.BufferReader.readUntil_ok hW
    have hc : buf.contents h1 = l ++ [LF] := (show buf.contents h1 = line from hu.contents).trans hbuf
    have hs1 : Sound h1.given (buf :: input :: p :: rest) := hu.sound
    have hsame : Same h h1 (input :: p :: rest) := same_given hu.same
    have hcap : p.capacity h1 = p.capacity h := hsame.capacity (List.mem_cons_of_mem _ List.mem_cons_self)
    have hused : l.length + 1 ≤ input.used := by
      rw [← length_contents (sound_swap hr.sound), hin, List.length_append, List.length_cons]
      omega
    have hperm : (buf :: input :: p :: rest).Perm (p :: buf :: input :: rest) :=
      show ([buf, input] ++ p :: rest).Perm (p :: ([buf, input] ++ rest)) from List.perm_middle
    have hown : Own p (buf :: input :: rest) := by
      intro a ha
      have hown := hr.own a ha
      rw [owners_cons] at hown ⊢
      rw [owners_cons, (hu.slice rfl rfl).1]
      omega
    have hafford := hr.afford
    have happ : Spared h1 (p.appendBytes h1 (buf.contents h1)).2.1 := by
      refine (appendBytes_cases (firm_given (sound_perm hperm hs1)) hown ?_).resolve_left fun hno => ?_
      · rw [hc, List.length_append, List.length_singleton]
        omega
      · obtain ⟨hneed, hnone, _⟩ := hno
        rw [hcap, hc, List.length_append, List.length_singleton] at hneed
        rw [hsupply, hnext] at hnone
        refine hline l.length ?_ hneed hnone
        rw [show input.contents h = l ++ LF :: s from hin]
        exact memchr_found s hl
    dsimp only [appendLine]
    have hlast := next_release (p.appendBytes h1 (buf.contents h1)).2.1 buf.data
    have hsupply2 := (tame_appendBytes h1 p (buf.contents h1)).supply
    exact ((spared_idle hnext).trans hsupply happ).trans (hsupply2.trans hsupply) (spared_idle hlast)
  | _ => exact spared_idle ((next_release h1 buf.data).trans hnext)

theorem spared_readLen (hr : Reading h.given input rest p 0) {i : Int} (hline : i = 0 → LineGranted h input p) :
    Spared h (readLen far i h input 0 (some p)).2.2.2.1 := by
  unfold readLen
  by_cases h0 : i = 0
  · rw [if_pos h0]
    exact spared_readInt32 hr (hline h0) i
  · rw [if_neg h0]
    exact spared_idle rfl

/-- No memory for an item's bytes: its line may have been read before that, nothing else has happened. -/
structure Stalled (far : Bytes) (h : Heap) (input : Buffer) (rest : List Buffer) (p : Buffer) (bulkLen len : Int)
    (h' : Heap) (p' : Buffer) (o' : Nat) : Prop where
  read : Wire.MultibulkParser.readLen (input.behind h far) bulkLen ⟨input.contents h, 0⟩ (some (p.contents h)) =
    (.ok, len, some (p'.contents h'), ⟨input.contents h, o'⟩)
  item : ¬ (bulkLen = 0 ∧ len ≤ 0)
  moved : Moved h.given input rest p (p'.contents h') ⟨input.contents h, o'⟩ h'.given p' o'
  block : p'.data ≠ none

variable {m : Wire.MultibulkParser}

/-- One item, with memory for its line. -/
theorem responseLoop_one (hr : Reading h.given input rest p 0) (hb : m.bulkLen ≠ 0 → p.data ≠ none)
    (hline : m.bulkLen = 0 → LineGranted h input p) (far : Bytes) :
    Spared h (responseLoop far input 1 m h p 0).2.2.1 ∨
      ∃ len h' p' o', responseLoop far input 1 m h p 0 = (.exhausted, { m with bulkLen := len }, h', p', o') ∧
        Stalled far h input rest p m.bulkLen len h' p' o' := by
  have hs : Spared h (readLen far m.bulkLen h input 0 (some p)).2.2.2.1 := spared_readLen hr hline
  have htame := tame_readLen far m.bulkLen h input 0 (some p)
  have heq := htame.same hs
  have hview := readLen_view hr (Nat.zero_le _) far m.bulkLen
  have hp := Wire.MultibulkParser.readLen_passed (input.behind h.given far) (hr.within (Nat.zero_le _)) m.bulkLen
    (p.contents h.given)
  rw [heq] at hview
  rcases hl : readLen far m.bulkLen h input 0 (some p) with ⟨e, len, pb, h1, o1⟩
  rw [hl] at hs htame hview
  obtain ⟨_, _, p1, _, _, d, hx, hW, hmoved, hblock⟩ := hview.parts
  simp only [Prod.mk.injEq] at hx
  obtain ⟨rfl, rfl, rfl, rfl, rfl⟩ := hx
  rw [hW] at hp
  rw [responseLoop, hl]
  have hsupply : h1.supply = h.supply := htame.supply
  have hs : Spared h h1 := hs
  have hr1 : Reading h1.given input rest p1 o1 := hmoved.reading hr hp
  cases e with
  | ok =>
    have hb1 : p1.data ≠ none := hblock rfl hb
    dsimp only [Option.getD_some]
    by_cases hitem : m.bulkLen = 0 ∧ len ≤ 0
    · rw [if_pos hitem]
      exact Or.inl hs
    rw [if_neg hitem]
    rcases BufferReader.read_cases hr1 (readSize len) with hyes | ⟨h2, he, hf, hsame⟩
    · left
      rcases hx : BufferReader.read h1 input o1 p1 (readSize len) with ⟨e2, h2, p2, o2⟩
      rw [hx] at hyes
      cases e2 <;> exact hs.trans hsupply hyes
    · right
      rw [he]
      have hc : p1.contents h2 = p1.contents h1 := hsame.contents List.mem_cons_self
      have hd : p1.contents h1 = d := hmoved.contents
      refine ⟨len, h2, p1, o1, rfl, ?_, hitem, ?_, hb1⟩
      · rw [hc, hd]
        exact hW
      · refine ⟨rfl, rfl, hf.given, hmoved.own, ?_, fun _ => hb1⟩
        exact hmoved.same.trans (fun a ha => ⟨(hsame.tail a ha).cells, (hsame.tail a ha).size⟩)
  | _ => exact Or.inl hs

/-- The counters of one item, `first` the next byte. -/
def Lone (m : Wire.MultibulkParser) (first : Byte) : Prop :=
  m.multibulkIndex = 0 ∧ (m.multibulkLen = 1 ∨ m.multibulkLen = 0 ∧ first ≠ 42)

theorem handleResponse_one (hm : Lone m (BufferReader.current h input o)) (far : Bytes) (p : Buffer) :
    handleResponse far m h input o p = responseLoop far input 1 { m with multibulkLen := 1 } h p o := by
  obtain ⟨hi, hlen⟩ := hm
  have hcount : readCount far m h input o p = (.ok, 1, some p, h, o) := by
    unfold readCount
    rcases hlen with h1 | ⟨h0, hfirst⟩
    · rw [if_neg (by omega), h1]
    · rw [if_pos h0, if_neg hfirst]
  unfold handleResponse
  rw [hcount, hi]
  rfl

end MultibulkParser

namespace Replies

variable {s : Replies} {far : Bytes}

/-- The same, with no allocation refused. -/
def given (s : Replies) : Replies := { s with heap := s.heap.given }

/-- The reply type the next call goes by. -/
def mode (s : Replies) : ParseType :=
  if s.parser.parseType = .none then
    Wire.CmdParser.responseType (BufferReader.current s.heap s.parser.inputb s.parser.inputbr)
  else s.parser.parseType

/-- A call that is to append a line has the memory for it. A line reply is appended to no block. -/
def Granted (s : Replies) : ReplyEvent → Prop
  | .parseResponse _ => s.parser.multibulkParser.bulkLen = 0 → s.mode = .multibulk ∨ s.resp.data ≠ none →
      LineGranted s.heap s.parser.inputb s.resp
  | _ => True

instance (s : Replies) : (e : ReplyEvent) → Decidable (s.Granted e)
  | .receive _ => inferInstanceAs (Decidable True)
  | .appendCapacity _ => inferInstanceAs (Decidable True)
  | .parseResponse _ => inferInstanceAs (Decidable (_ → _ → _))

/-! ## The run with no allocation refused -/

theorem given_receive (s : Replies) (l : Bytes) : (s.step (.receive l)).given = s.given.step (.receive l) := by
  unfold step given
  dsimp only
  rw [← given_writeTail]
  rfl

theorem given_clear (h : Heap) (b : Buffer) : b.clear h.given = ((b.clear h).1.given, (b.clear h).2) := by
  unfold Buffer.clear
  cases b.data with
  | none => rfl
  | some a =>
    dsimp only
    by_cases hshared : 1 < h.refCount a
    · rw [if_pos hshared, if_pos (show 1 < h.given.refCount a from hshared), ← Heap.given_descRef]
    · rw [if_neg hshared, if_neg (show ¬ 1 < h.given.refCount a from hshared)]

theorem kept_denied (hk : Kept rest s.given) : Kept rest { s with heap := s.heap.denied }.given := by
  obtain ⟨⟨hs, hown, hroom, hlt, hafford⟩, hset, hblock⟩ := hk.between
  exact ⟨⟨(firm_given hs).denied.given, hown, hroom, hlt, hafford⟩, hset, hblock⟩

/-- A refused growth of the input changes nothing. -/
theorem step_grow_given (s : Replies) (n : Nat) :
    s.step (.appendCapacity n) = { s with heap := s.heap.denied } ∨
      (s.step (.appendCapacity n)).given = s.given.step (.appendCapacity n) := by
  by_cases hasks : s.parser.inputb.Asks s.heap n
  · by_cases h0 : s.heap.supply s.heap.next = none
    · left
      rw [step, appendCapacity_refused hasks h0]
    · right
      obtain ⟨h', b', he, he', _⟩ := appendCapacity_granted hasks h0
      unfold step given
      dsimp only
      rw [he, he']
  · right
    obtain ⟨h', b', he, he', _⟩ := appendCapacity_spare hasks
    unfold step given
    dsimp only
    rw [he, he']

/-- A call that is spared. -/
theorem step_parse_given (hs : Spared s.heap (s.parser.parseResponse far s.heap s.resp).2.1) :
    (s.step (.parseResponse far)).given = s.given.step (.parseResponse far) := by
  have heq := (CmdParser.tame_parseResponse far s.heap s.parser s.resp).same hs
  unfold step given
  dsimp only
  rw [heq]
  rcases hx : s.parser.parseResponse far s.heap s.resp with ⟨e, h', p, resp⟩
  cases e with
  | ok =>
    dsimp only
    rw [given_clear]
    rfl
  | _ => rfl

/-- What can be refused of a call that meets its condition: an item's bytes, as a whole. -/
theorem parse_cases (hk : Kept rest s.given)
    (hone : s.mode = .multibulk →
      MultibulkParser.Lone s.parser.multibulkParser (BufferReader.current s.heap s.parser.inputb 0))
    (hline : s.mode ≠ .multibulk → s.parser.multibulkParser.bulkLen = 0) (hg : s.Granted (.parseResponse far)) :
    Spared s.heap (s.parser.parseResponse far s.heap s.resp).2.1 ∨
      s.mode = .multibulk ∧ ∃ len h' p' o', s.parser.parseResponse far s.heap s.resp =
          (.exhausted, h', (⟨.multibulk, ⟨1, 0, len⟩, s.parser.inputb, 0⟩ : CmdParser).handOver o', p') ∧
        MultibulkParser.Stalled far s.heap s.parser.inputb rest s.resp s.parser.multibulkParser.bulkLen
          len h' p' o' := by
  obtain ⟨hr, ⟨h0, _⟩, hblock⟩ := hk.between
  have h0 : s.parser.inputbr = 0 := h0
  have hr : Reading s.heap.given s.parser.inputb rest s.resp 0 := hr
  unfold Granted mode at hg
  unfold mode at hone hline ⊢
  unfold CmdParser.parseResponse
  rw [h0] at hg hone hline ⊢
  generalize (if s.parser.parseType = .none then _ else s.parser.parseType) = type at hg hone hline ⊢
  by_cases hend : BufferReader.eof s.parser.inputb 0 = true
  · rw [if_pos hend]
    exact Or.inl (spared_idle rfl)
  rw [if_neg hend]
  dsimp only
  by_cases hnone : type = .none
  · rw [if_pos hnone]
    exact Or.inl (spared_idle rfl)
  rw [if_neg hnone]
  by_cases hmulti : type = .multibulk
  · rw [if_pos hmulti]
    have hone := hone hmulti
    rw [MultibulkParser.handleResponse_one hone]
    rcases MultibulkParser.responseLoop_one (m := { s.parser.multibulkParser with multibulkLen := 1 }) hr hblock
      (fun hb0 => hg hb0 (Or.inl hmulti)) far with hyes | ⟨len, h', p', o', he, hstall⟩
    · exact Or.inl hyes
    · right
      refine ⟨hmulti, len, h', p', o', ?_, hstall⟩
      rw [he, hmulti]
      dsimp only
      rw [hone.1]
  · rw [if_neg hmulti]
    left
    have hs := spared_readUntil hr fun hd => hg (hline hmulti) (Or.inr hd)
    unfold InlineParser.handleResponse
    rcases hx : BufferReader.readUntil s.heap s.parser.inputb 0 s.resp LF 1 with ⟨e, h1, p1, o1⟩
    rw [hx] at hs
    cases e <;> exact hs

/-! ## A run -/

/-- What of `rs` is to come, where `q` of it has been received. -/
inductive Pending : List Reply → Bytes → Wire.CmdParser → Bytes → Prop
  | idle : Pending [] [] .init []
  | next {r : Reply} {todo : List Reply} {q resp : Bytes} {P : Wire.CmdParser} :
      Partway r q P resp → Pending (r :: todo) q P resp

/-- The replies handed on are the first ones, and the next one is on its way. -/
def Stage (rs : List Reply) (received : Bytes) (delivered : List Bytes) (P : Wire.CmdParser) (resp : Bytes) : Prop :=
  ∃ done todo q, rs = done ++ todo ∧ delivered = done.map Reply.encode ∧
    received = done.flatMap Reply.encode ++ q ∧ Pending todo q P resp

variable {rs : List Reply} {received : Bytes} {delivered : List Bytes} {P : Wire.CmdParser} {resp : Bytes}

theorem pending_start : ∀ todo : List Reply, ∀ q, q <+: todo.flatMap Reply.encode →
    Pending todo q ⟨.none, .reset, q, 0⟩ []
  | [], q, hq => by
    obtain rfl : q = [] := List.prefix_nil.mp hq
    exact .idle
  | r :: _, q, _ => .next (partway_start r q)

theorem stage_feed (hst : Stage rs received delivered P resp) {l : Bytes}
    (hpre : received ++ l <+: rs.flatMap Reply.encode) : Stage rs (received ++ l) delivered (P.feed l) resp := by
  obtain ⟨done, todo, q, rfl, hd, rfl, hpend⟩ := hst
  rw [List.append_assoc, List.flatMap_append, List.prefix_append_right_inj] at hpre
  refine ⟨done, todo, q ++ l, rfl, hd, List.append_assoc _ _ _, ?_⟩
  cases hpend with
  | idle =>
    obtain rfl : l = [] := List.prefix_nil.mp hpre
    exact .idle
  | next hp => exact .next (hp.feed l)

/-- Between two events of a run that meets its condition. -/
structure Capturing (rest : List Buffer) (rs : List Reply) (received : Bytes) (s : Replies) : Prop where
  kept : Kept rest s.given
  stage : Stage rs received s.delivered (s.parser.view s.heap) (s.resp.contents s.heap)

theorem capturing_receive (hc : Capturing rest rs received s) {l : Bytes} (hf : s.Fits (.receive l))
    (hpre : received ++ l <+: rs.flatMap Reply.encode) :
    Capturing rest rs (received ++ l) (s.step (.receive l)) := by
  have hf : s.given.Fits (.receive l) := hf
  obtain ⟨hresp, hview⟩ := receive_view hc.kept hf
  have hstep := given_receive s l
  have hkept := (step_receive hc.kept hf).1
  rw [← hstep] at hresp hview hkept
  refine ⟨hkept, ?_⟩
  have hresp : (s.step (.receive l)).resp.contents (s.step (.receive l)).heap = s.resp.contents s.heap := hresp
  have hview : (s.step (.receive l)).parser.view (s.step (.receive l)).heap = (s.parser.view s.heap).feed l := hview
  rw [hresp, hview]
  exact stage_feed hc.stage hpre

theorem capturing_grow (hc : Capturing rest rs received s) {n : Nat} (hf : s.Fits (.appendCapacity n)) :
    Capturing rest rs received (s.step (.appendCapacity n)) := by
  rcases step_grow_given s n with hstep | hstep
  · rw [hstep]
    exact ⟨kept_denied hc.kept, hc.stage⟩
  · have hf : s.given.Fits (.appendCapacity n) := hf
    obtain ⟨hresp, hview⟩ := grow_view hc.kept hf
    have hkept := (step_grow hc.kept hf).1
    rw [← hstep] at hresp hview hkept
    refine ⟨hkept, ?_⟩
    have hresp : (s.step (.appendCapacity n)).resp.contents (s.step (.appendCapacity n)).heap =
      s.resp.contents s.heap := hresp
    have hview : (s.step (.appendCapacity n)).parser.view (s.step (.appendCapacity n)).heap =
      s.parser.view s.heap := hview
    rw [hresp, hview]
    exact hc.stage

theorem mode_view (hk : Kept rest s.given) : s.mode = (s.parser.view s.heap).mode := by
  have hcur := BufferReader.current_view (sound_swap hk.between.reading.sound) s.parser.inputbr
  have hcur : (⟨s.parser.inputb.contents s.heap, s.parser.inputbr⟩ : Wire.BufferReader).current =
    BufferReader.current s.heap s.parser.inputb s.parser.inputbr := hcur
  unfold mode Wire.CmdParser.mode CmdParser.view
  dsimp only
  rw [hcur]

theorem input_lt (hk : Kept rest s.given) : (s.parser.view s.heap).inputb.length < 2 ^ 31 := by
  have hr := hk.between.reading
  have hlen : (s.parser.inputb.contents s.heap).length = s.parser.inputb.used :=
    firm_contents (firm_given (sound_swap hr.sound))
  exact (Nat.le_of_eq hlen).trans_lt hr.lt

/-- A call that is spared gives the reply when it is there whole, and waits for the rest when it is not. -/
theorem stage_spared {r : Reply} {done todo : List Reply} {q : Bytes} (hk : Kept rest s.given) (hr : r.Single)
    (hd : s.delivered = done.map Reply.encode) (hp : Partway r q (s.parser.view s.heap) (s.resp.contents s.heap))
    (hq : q <+: r.encode ++ todo.flatMap Reply.encode)
    (hs : Spared s.heap (s.parser.parseResponse far s.heap s.resp).2.1) :
    let t := s.step (.parseResponse far)
    Stage (done ++ r :: todo) (done.flatMap Reply.encode ++ q) t.delivered (t.parser.view t.heap)
      (t.resp.contents t.heap) := by
  have hview : CmdParser.Parsed s.heap.given s.parser rest
      ((s.parser.view s.heap).parseResponse (s.parser.inputb.behind s.heap far) (s.resp.contents s.heap))
      (s.parser.parseResponse far s.heap.given s.resp) := CmdParser.parseResponse_view hk.between far
  have hcall : _ ∨ ∃ v, q = r.encode ++ v ∧ Answers r v
      ((s.parser.view s.heap).parseResponse (s.parser.inputb.behind s.heap far) (s.resp.contents s.heap)) :=
    partway_call hr hp hq (input_lt hk)
  have heq := (CmdParser.tame_parseResponse far s.heap s.parser s.resp).same hs
  rcases hx : s.parser.parseResponse far s.heap s.resp with ⟨e, h', p, resp'⟩
  rw [hx] at heq
  have hc := called hk heq
  rw [heq] at hview
  have herr : e = _ := hview.err
  have hpv : p.view h' = _ := hview.view
  have hrv : resp'.contents h' = _ := hview.contents
  rw [step, hx]
  rcases hcall with ⟨hne, hpart⟩ | ⟨v, rfl, type, m, hres⟩
  · -- not there whole
    rw [← herr] at hne
    rw [← hpv, ← hrv] at hpart
    refine ⟨done, r :: todo, q, rfl, ?_⟩
    cases e with
    | ok => exact absurd rfl hne
    | _ => exact ⟨hd, rfl, .next hpart⟩
  · rw [hres] at herr hpv hrv
    obtain rfl : e = .ok := herr
    obtain ⟨_, hsame, _, hnil, _⟩ := sound_clear hc.sound
    rw [given_clear] at hsame hnil
    have hin : p.inputb.contents (resp'.clear h').1 = v := by
      rw [show p.inputb.contents (resp'.clear h').1 = p.inputb.contents h' from hsame.contents List.mem_cons_self]
      exact congrArg Wire.CmdParser.inputb hpv
    have hreset : p.reset.view (resp'.clear h').1 = ⟨.none, .reset, v, 0⟩ := by
      rw [← hin]
      exact congrArg (fun o => (⟨.none, .reset, _, o⟩ : Wire.CmdParser)) (congrArg Wire.CmdParser.inputbr hpv)
    refine ⟨done ++ [r], todo, v, by simp, ?_, by simp, ?_⟩
    · show s.delivered ++ [resp'.contents h'] = _
      rw [hd, hrv]
      simp
    · rw [hreset]
      rw [show (resp'.clear h').2.contents (resp'.clear h').1 = [] from hnil]
      rw [List.prefix_append_right_inj] at hq
      exact pending_start todo v hq

/-- A call that ends for want of memory leaves the rest of the reply for the next one. -/
theorem step_stalled (hk : Kept rest s.given) {len : Int} {h' : Heap} {p' : Buffer} {o' : Nat}
    (hx : s.parser.parseResponse far s.heap s.resp =
      (.exhausted, h', (⟨.multibulk, ⟨1, 0, len⟩, s.parser.inputb, 0⟩ : CmdParser).handOver o', p'))
    (hst : MultibulkParser.Stalled far s.heap s.parser.inputb rest s.resp s.parser.multibulkParser.bulkLen
      len h' p' o') :
    let t := s.step (.parseResponse far)
    Kept rest t.given ∧ t.delivered = s.delivered ∧ t.resp.contents t.heap = p'.contents h' ∧
      t.parser.view t.heap = (⟨.multibulk, ⟨1, 0, len⟩, s.parser.inputb.contents s.heap, 0⟩ : Wire.CmdParser).handOver
        ⟨s.parser.inputb.contents s.heap, o'⟩ := by
  obtain ⟨hread, hitem, hmoved, hblock⟩ := hst
  have hr : Reading s.heap.given s.parser.inputb rest s.resp 0 := hk.between.reading
  have h0 : s.parser.inputbr = 0 := hk.between.settled.inputbr
  have hm : s.parser.multibulkParser.Counting := hk.between.settled.counting
  have hw : Wire.BufferReader.Within ⟨s.parser.inputb.contents s.heap, 0⟩ := hr.within (Nat.zero_le _)
  have hpassed := Wire.MultibulkParser.readLen_passed (s.parser.inputb.behind s.heap far) hw
    s.parser.multibulkParser.bulkLen (s.resp.contents s.heap)
  have hcount := Wire.MultibulkParser.readLen_counting (s.parser.inputb.behind s.heap far)
    (r := ⟨s.parser.inputb.contents s.heap, 0⟩) hm (some (s.resp.contents s.heap))
  rw [hread] at hpassed hcount
  have hlen : 0 ≤ len ∧ len < 2 ^ 31 := ⟨Int.le_of_lt (hcount.2 hitem), hcount.1⟩
  obtain ⟨hbr, hbytes⟩ := Wire.CmdParser.handOver_passed
    (show (⟨.multibulk, ⟨1, 0, len⟩, s.parser.inputb.contents s.heap, 0⟩ : Wire.CmdParser).inputbr = 0 from rfl)
    (input_lt hk) hpassed
  have hparsed : CmdParser.Parsed s.heap.given ⟨s.parser.parseType, s.parser.multibulkParser, s.parser.inputb, 0⟩ rest
      (.exhausted, (⟨.multibulk, ⟨1, 0, len⟩, s.parser.inputb.contents s.heap, 0⟩ : Wire.CmdParser).handOver
        ⟨s.parser.inputb.contents s.heap, o'⟩, p'.contents h')
      (.exhausted, h'.given, (⟨.multibulk, ⟨1, 0, len⟩, s.parser.inputb, 0⟩ : CmdParser).handOver o', p') :=
    CmdParser.parsed_handOver hr hmoved.left (hr.passed_le hpassed) fun _ => ⟨hmoved.own, fun _ => hblock⟩
  rw [show (⟨s.parser.parseType, s.parser.multibulkParser, s.parser.inputb, 0⟩ : CmdParser) = s.parser by rw [← h0]]
    at hparsed
  have hcalled : Called rest s.given .exhausted h'.given _ p' :=
    called_of hk hparsed ⟨hbr, by rw [Wire.CmdParser.handOver_multibulkParser]; exact hlen⟩ hbytes
  have hview := hparsed.view
  rw [step, hx]
  exact ⟨(kept_waiting hcalled Error.noConfusion).1, rfl, rfl, hview⟩

theorem capturing_parse (hsingle : ∀ r ∈ rs, r.Single) (hc : Capturing rest rs received s)
    (hg : s.Granted (.parseResponse far)) (hpre : received <+: rs.flatMap Reply.encode) :
    Capturing rest rs received (s.step (.parseResponse far)) := by
  obtain ⟨hk, done, todo, q, rfl, hd, rfl, hpend⟩ := hc
  rw [List.flatMap_append, List.prefix_append_right_inj] at hpre
  generalize hP : s.parser.view s.heap = P at hpend
  generalize hresp : s.resp.contents s.heap = resp at hpend
  cases hpend with
  | idle =>
    -- nothing is left to read
    have hend : BufferReader.eof s.parser.inputb s.parser.inputbr = true := by
      have hin : s.parser.inputb.contents s.heap = [] := congrArg Wire.CmdParser.inputb hP
      have hlen := firm_contents (firm_given (sound_swap hk.between.reading.sound))
      rw [show s.given.parser.inputb.contents s.heap = [] from hin] at hlen
      simp only [BufferReader.eof, decide_eq_true_eq]
      exact (Nat.le_of_eq hlen.symm).trans (Nat.zero_le _)
    have hstep : s.step (.parseResponse far) = s := by
      rw [step]
      unfold CmdParser.parseResponse
      rw [if_pos hend]
    rw [hstep]
    exact ⟨hk, done, [], [], rfl, hd, rfl, by rw [hP, hresp]; exact .idle⟩
  | @next r todo q resp P hp =>
    subst hP hresp
    have hr : r.Single := hsingle r (List.mem_append_right done List.mem_cons_self)
    rw [List.flatMap_cons] at hpre
    have hstands := hp.stands hr
    have hmode := mode_view hk
    have hone : s.mode = .multibulk →
        MultibulkParser.Lone s.parser.multibulkParser (BufferReader.current s.heap s.parser.inputb 0) := by
      intro hmulti
      have hcur : (⟨s.parser.inputb.contents s.heap, 0⟩ : Wire.BufferReader).current =
          BufferReader.current s.heap s.parser.inputb 0 :=
        BufferReader.current_view (sound_swap hk.between.reading.sound) 0
      rw [← hcur]
      exact hstands.lone hr hpre (hmode ▸ hmulti)
    have hline : s.mode ≠ .multibulk → s.parser.multibulkParser.bulkLen = 0 :=
      fun hne => hstands.bulkLen (hmode ▸ hne)
    rcases parse_cases hk hone hline hg with hs | ⟨hmulti, len, h', p', o', hx, hst⟩
    · refine ⟨?_, stage_spared hk hr hd hp hpre hs⟩
      rw [step_parse_given hs]
      exact (step_parse hk far).1
    · obtain ⟨hk', hd', hresp', hview⟩ := step_stalled hk hx hst
      refine ⟨hk', done, r :: todo, q, rfl, hd'.trans hd, rfl, .next ?_⟩
      rw [hresp', hview]
      exact partway_stalled hr hp hpre (input_lt hk) (hmode ▸ hmulti) hst.read hst.item

theorem run_capturing (hsingle : ∀ r ∈ rs, r.Single) (events : List ReplyEvent) : ∀ received s,
    Capturing rest rs received s → Each step (fun s e => s.Fits e ∧ s.Granted e) s events →
      received ++ events.flatMap ReplyEvent.bytes <+: rs.flatMap Reply.encode →
        Capturing rest rs (received ++ events.flatMap ReplyEvent.bytes) (events.foldl step s) := by
  induction events with
  | nil =>
    intro received s hc _ _
    rwa [List.flatMap_nil, List.append_nil]
  | cons e events ih =>
    intro received s hc heach hpre
    obtain ⟨⟨hf, hg⟩, hrest⟩ := heach
    rw [List.flatMap_cons, ← List.append_assoc] at hpre ⊢
    have hnow : received ++ e.bytes <+: rs.flatMap Reply.encode := (List.prefix_append _ _).trans hpre
    refine ih _ _ ?_ hrest hpre
    cases e with
    | receive l => exact capturing_receive hc hf hnow
    | appendCapacity n =>
      rw [show received ++ (ReplyEvent.appendCapacity n).bytes = received from List.append_nil received]
      exact capturing_grow hc hf
    | parseResponse far =>
      rw [show received ++ (ReplyEvent.parseResponse far).bytes = received from List.append_nil received] at hnow ⊢
      exact capturing_parse hsingle hc hg hnow

/-- A reset parser that has read all it received, and a cleared `resp`, whatever block that has kept. -/
structure Awaiting (rest : List Buffer) (s : Replies) : Prop where
  firm : Firm s.heap (s.resp :: s.parser.inputb :: rest)
  own : Own s.resp (s.parser.inputb :: rest)
  /-- The count of the input's block does not wrap. -/
  room : ∀ a, s.parser.inputb.data = some a → owners (s.parser.inputb :: rest) a + 2 < 2 ^ 32
  reset : s.parser.parseType = .none ∧ s.parser.multibulkParser = .reset ∧ s.parser.inputbr = 0
  read : s.parser.inputb.used = 0
  cleared : s.resp.used = 0
  delivered : s.delivered = []

theorem capturing_start (hs : Awaiting rest s) (rs : List Reply) : Capturing rest rs [] s := by
  obtain ⟨hfirm, hown, hroom, ⟨htype, hm, hbr⟩, hread, hcleared, hd⟩ := hs
  have hin : s.parser.inputb.contents s.heap = [] :=
    List.eq_nil_of_length_eq_zero ((firm_contents (firm_swap hfirm)).trans hread)
  have hresp : s.resp.contents s.heap = [] := List.eq_nil_of_length_eq_zero ((firm_contents hfirm).trans hcleared)
  refine ⟨⟨⟨⟨hfirm.given, hown, hroom, ?_, ?_⟩, ⟨hbr, ?_⟩, fun h0 => absurd ?_ h0⟩⟩, [], rs, [], rfl, hd, rfl, ?_⟩
  · show s.parser.inputb.used < 2 ^ 31
    omega
  · show s.resp.used + (s.parser.inputb.used - 0) + 4 < 2 ^ 32
    omega
  · show s.parser.multibulkParser.Counting
    rw [hm]
    exact Wire.MultibulkParser.counting_reset
  · show s.parser.multibulkParser.bulkLen = 0
    rw [hm]
    rfl
  · unfold CmdParser.view
    rw [hin, hresp, htype, hm, hbr]
    exact pending_start rs [] (List.nil_prefix)

/-- Whatever is refused besides the lines: each `OK` is one reply, whole, and what was received of the next
    is in `resp` and unread. -/
theorem ok_captures (hsingle : ∀ r ∈ rs, r.Single) (hs : Awaiting rest s) (events : List ReplyEvent)
    (hrun : Each step (fun s e => s.Fits e ∧ s.Granted e) s events)
    (hreceived : events.flatMap ReplyEvent.bytes <+: rs.flatMap Reply.encode) :
    let t := events.foldl step s
    ∃ k, t.delivered = (rs.take k).map Reply.encode ∧
      (rs.take k).flatMap Reply.encode ++ t.resp.contents t.heap ++ t.parser.inputb.contents t.heap =
        events.flatMap ReplyEvent.bytes := by
  have hc := run_capturing hsingle events [] s (capturing_start hs rs) hrun hreceived
  rw [List.nil_append] at hc
  obtain ⟨_, done, todo, q, rfl, hd, hrec, hpend⟩ := hc
  have hbytes : (events.foldl step s).resp.contents (events.foldl step s).heap ++
      (events.foldl step s).parser.inputb.contents (events.foldl step s).heap = q := by
    generalize hP : (events.foldl step s).parser.view (events.foldl step s).heap = P at hpend
    generalize (events.foldl step s).resp.contents (events.foldl step s).heap = resp at hpend ⊢
    rw [show (events.foldl step s).parser.inputb.contents (events.foldl step s).heap = P.inputb by rw [← hP]; rfl]
    cases hpend with
    | idle => rfl
    | next hp => exact hp.bytes
  refine ⟨done.length, ?_, ?_⟩
  · rw [List.take_left]
    exact hd
  · rw [List.take_left, List.append_assoc, hbytes, hrec]

theorem firm_start (supply : Nat → Option (Nat → Byte)) : Firm (.start supply) [] :=
  firm_given (sound_start fun _ => Option.some_ne_none _)

theorem awaiting_start (hf : Firm h rest) : Awaiting rest (start h) :=
  ⟨firm_null (firm_null hf), fun _ ha => (nomatch ha), fun _ ha => (nomatch ha), ⟨rfl, rfl, rfl⟩, rfl, rfl, rfl⟩

/-- A bulk string whose bytes find no memory at first. -/
theorem ok_captures_retried :
    let events := [ReplyEvent.appendCapacity 16, .receive [36, 53, 13, 10, 104, 101, 108, 108, 111, 13, 10],
      .parseResponse [], .parseResponse []]
    let t := events.foldl step (start (.start fun k => if k = 2 then none else some fun _ => 0))
    ∃ k, t.delivered = ([Reply.bulk [104, 101, 108, 108, 111]].take k).map Reply.encode ∧
      ([Reply.bulk [104, 101, 108, 108, 111]].take k).flatMap Reply.encode ++ t.resp.contents t.heap ++
        t.parser.inputb.contents t.heap = events.flatMap ReplyEvent.bytes :=
  ok_captures (by simp [Reply.Single]) (awaiting_start (firm_start _)) _
    ⟨by decide, by decide, by decide, by decide, trivial⟩ (by decide)

/-- No memory for the line: a bulk string comes without it; a line reply comes empty, after a null
    bulk whose block `resp` has kept. -/
theorem ok_without_line :
    (let t := [ReplyEvent.appendCapacity 16, .receive [36, 53, 13, 10, 104, 101, 108, 108, 111, 13, 10],
        .parseResponse []].foldl step (start (.start fun k => if k = 1 then none else some fun _ => 0))
      ∀ k, t.delivered ≠ ([Reply.bulk [104, 101, 108, 108, 111]].take k).map Reply.encode) ∧
    (let t := [ReplyEvent.appendCapacity 16, .receive [36, 45, 49, 13, 10], .parseResponse [],
        .receive [58, 49, 48, 48, 48, 13, 10], .parseResponse []].foldl step
          (start (.start fun k => if k = 2 then none else some fun _ => 0))
      ∀ k, t.delivered ≠ ([Reply.nullBulk, .integer 1000].take k).map Reply.encode) := by
  constructor
  · intro t k hk
    have hd : t.delivered = [[104, 101, 108, 108, 111, 13, 10]] := by decide
    rw [hd] at hk
    rcases k with _ | k
    · cases hk
    · rw [List.take_succ_cons, List.take_nil] at hk
      revert hk
      decide
  · intro t k hk
    have hd : t.delivered = [[36, 45, 49, 13, 10], []] := by decide
    rw [hd] at hk
    rcases k with _ | _ | k
    · cases hk
    · cases hk
    · rw [List.take_succ_cons, List.take_succ_cons, List.take_nil] at hk
      revert hk
      decide

end Replies

end RedisProxy.Mem
