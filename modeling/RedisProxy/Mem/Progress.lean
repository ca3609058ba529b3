/-
  RedisProxy.Mem.Progress — the loops inside a call, whatever the allocator and the heap do.

  Nothing is asked of the heap, of the parser or of its counters: a read moves on whether or
  not its append succeeds, and never past the end of an input that lies in its block
  (`Buffer.Placed`).

  Each loop of `cmd.cpp` is written here as its pass (`requestPass`, `responsePass`), with
  the source's own condition; a measure of the bytes left shows that it leaves, and that what it
  leaves with is what the functions of `Mem.Parser` return.

  Proved:
  - `InlineParser.requestLoop_leaves`, `MultibulkParser.requestLoop_leaves`,
    `MultibulkParser.responseLoop_leaves`: the loops leave, after no more passes than there
    are bytes, and one.
  - `CmdParser.parseRequest_onward`: a call never lengthens the input, and an `OK` on a parser
    that has nothing left over shortens it.
-/

import RedisProxy.Lib.Loops
import RedisProxy.Mem.Reader

namespace RedisProxy.Mem

open Lib.Loops Lib.Decimal Wire

/-- `offset_` is not behind `size_`, which a `uint32_t` holds, and fewer than 2^31 bytes are there. -/
structure Buffer.Placed (b : Buffer) : Prop where
  offset_le : b.offset ≤ b.size
  size_lt : b.size < 2 ^ 32
  used_lt : b.used < 2 ^ 31

variable {h h' : Heap} {input dst : Buffer} {o o' o'' : Nat}

/-- From `o` to `o'`, and not past the end. -/
structure Onward (input : Buffer) (o o' : Nat) : Prop where
  le : o ≤ o'
  within : input.Placed → o ≤ input.used → o' ≤ input.used

/-- `offset_` is not behind `size_`, which a `uint32_t` holds. -/
structure Buffer.Seated (b : Buffer) : Prop where
  offset_le : b.offset ≤ b.size
  size_lt : b.size < 2 ^ 32

/-- The same of an input of any length: where the start of `tmpBuffer` turns negative nothing is found. -/
structure Advances (input : Buffer) (o o' : Nat) : Prop where
  le : o ≤ o'
  within : input.Seated → o ≤ input.used → o' ≤ input.used

theorem Advances.onward (ha : Advances input o o') : Onward input o o' :=
  ⟨ha.le, fun hp => ha.within ⟨hp.offset_le, hp.size_lt⟩⟩

theorem Advances.refl (input : Buffer) (o : Nat) : Advances input o o := ⟨Nat.le_refl o, fun _ hle => hle⟩

theorem Advances.trans (h1 : Advances input o o') (h2 : Advances input o' o'') : Advances input o o'' :=
  ⟨Nat.le_trans h1.le h2.le, fun hs hle => h2.within hs (h1.within hs hle)⟩

/-! ## The reader -/

namespace BufferReader

theorem take_offset (h : Heap) (tmp dst : Buffer) (o i : Nat) :
    (take h tmp dst o i).2.2.2 = if (take h tmp dst o i).1 = .ok then o + i else o := by
  unfold take
  rcases dst.append h tmp i with ⟨_ | _, h', d⟩ <;> rfl

/-- A read that found its bytes. -/
theorem take_onward (h : Heap) (tmp dst : Buffer) (i : Nat) (hi : input.Seated → o ≤ input.used → o + i ≤ input.used) :
    Advances input o (take h tmp dst o i).2.2.2 ∧
      ((take h tmp dst o i).1 = .ok → (take h tmp dst o i).2.2.2 = o + i) := by
  rw [take_offset]
  split
  · exact ⟨⟨Nat.le_add_right o i, hi⟩, fun _ => rfl⟩
  · rename_i hne
    exact ⟨.refl input o, fun hok => absurd hok hne⟩

/-- `tmpBuffer` has no more bytes than are left. -/
theorem tmpBuffer_le (hs : input.Seated) (ho : o ≤ input.used) {tmp : Buffer} (ht : tmpBuffer h input o = (h', tmp)) :
    o + (tmp.contents h').length ≤ input.used := by
  have h1 := hs.offset_le
  have h2 := hs.size_lt
  have hused : input.used = input.size - input.offset := rfl
  cases ht
  have hle := length_contents_le (Buffer.copy h input).1 ((Buffer.copy h input).2.offsetBy (int32 o) 0)
  by_cases hlt : o < 2 ^ 31
  · have hoff := offsetBy_near h1 h2 ho hlt
    rw [show (Buffer.copy h input).2.offsetBy (int32 o) 0 = _ from hoff] at hle ⊢
    have hle : _ ≤ input.size - (input.offset + o) := hle
    omega
  · have hoff := offsetBy_far h1 h2 ho (Nat.le_of_not_lt hlt)
    rw [show (Buffer.copy h input).2.offsetBy (int32 o) 0 = _ from hoff] at hle ⊢
    have hle : _ ≤ input.size - input.size := hle
    omega

theorem found_onward (h : Heap) (input : Buffer) (o : Nat) (dst : Buffer) (find : Bytes → Option Nat) (k : Nat)
    (hfind : ∀ l i, find l = some i → i + k ≤ l.length) {r : Error × Heap × Buffer × Nat}
    (hr : (if eof input o then (.outOfBound, h, dst, o) else findIn (tmpBuffer h input o) o dst find k) = r) :
    Advances input o r.2.2.2 ∧ (r.1 = .ok → o < input.used ∧ o + k ≤ r.2.2.2) := by
  subst hr
  by_cases hend : eof input o = true
  · rw [if_pos hend]
    exact ⟨.refl input o, fun he => by cases he⟩
  · rw [if_neg hend, findIn]
    rcases ht : tmpBuffer h input o with ⟨h1, tmp⟩
    dsimp only
    cases hf : find (tmp.contents h1) with
    | none => exact ⟨.refl input o, fun he => by cases he⟩
    | some i =>
      have hi := hfind _ i hf
      have hfits : input.Seated → o ≤ input.used → o + (i + k) ≤ input.used := by
        intro hs ho
        have hle := tmpBuffer_le hs ho ht
        omega
      obtain ⟨honward, hoff⟩ := take_onward h1 tmp dst (i + k) hfits
      refine ⟨honward, fun he => ⟨lt_of_not_eof hend, ?_⟩⟩
      rw [hoff he]
      omega

theorem readUntil_onward (h : Heap) (input : Buffer) (o : Nat) (dst : Buffer) (ch : Byte) :
    Advances input o (readUntil h input o dst ch 1).2.2.2 ∧
      ((readUntil h input o dst ch 1).1 = .ok → o < input.used ∧ o < (readUntil h input o dst ch 1).2.2.2) :=
  found_onward h input o dst (memchr · ch) 1 (fun _ _ hf => Nat.succ_le_of_lt (memchr_lt hf))
    (readUntil_eq h input o dst ch 1).symm

theorem readUntilAny_onward (h : Heap) (input : Buffer) (o : Nat) (dst : Buffer) (chs : List Byte) :
    Advances input o (readUntilAny h input o dst chs).2.2.2 ∧
      ((readUntilAny h input o dst chs).1 = .ok → o < input.used) := by
  obtain ⟨honward, hlt⟩ := found_onward h input o dst (fun l => chs.findSome? (memchr l)) 0
    (fun _ _ hf => Nat.le_of_lt (findSome_lt hf)) (readUntilAny_eq h input o dst chs).symm
  exact ⟨honward, fun he => (hlt he).1⟩

theorem read_onward (h : Heap) (input : Buffer) (o : Nat) (dst : Buffer) (n : Nat) :
    Advances input o (read h input o dst n).2.2.2 := by
  unfold read
  by_cases hend : eof input o = true
  · rw [if_pos hend]
    exact .refl input o
  · rw [if_neg hend]
    by_cases hn : input.used - o < n
    · rw [if_pos hn]
      exact .refl input o
    · rw [if_neg hn]
      have hlt := lt_of_not_eof hend
      exact (take_onward _ _ dst n fun _ _ => by omega).1

theorem next_onward (input : Buffer) (o : Nat) : Advances input o (next input o) := by
  unfold next
  split
  · exact .refl input o
  · rename_i hend
    exact ⟨Nat.le_succ o, fun _ _ => lt_of_not_eof hend⟩

/-- Over the byte found. -/
theorem lt_next (ho : o < input.used) (hle : o ≤ o') : o < next input o' := by
  unfold next
  split
  · rename_i hend
    exact Nat.lt_of_lt_of_le ho (le_of_eof hend)
  · exact Nat.lt_succ_of_le hle

end BufferReader

open BufferReader

/-! ## Inline -/

namespace InlineParser

/-- One pass of the loop of `HandleRequest`, the read at its head included. -/
def requestPass (input : Buffer) : Heap × Cmd × Nat × Buffer → (Heap × Cmd × Nat × Buffer) ⊕ (Error × Heap × Cmd × Nat)
  | (h, cmd, o, buf) =>
    match readUntilAny h input o buf splitSign with
    | (.ok, h, buf, o) =>
      if current h input o = LF then
        let buf := if last h input o = CR then buf.offsetBy 0 (-1) else buf
        let (h, cmd) := cmd.appendArg h buf
        .inr (.ok, buf.destroy h, cmd, next input o)
      else
        let (h, cmd) := cmd.appendArg h buf
        .inl ((buf.clear h).1, cmd, next input o, (buf.clear h).2)
    | (.notFound, h, buf, o) => .inr (.tryAgain, buf.destroy h, cmd, o)
    | (e, h, buf, o) => .inr (e, buf.destroy h, cmd, o)

/-- Every pass that goes on is past one more byte. -/
theorem requestPass_lowers (input : Buffer) :
    Lowers (requestPass input) (fun _ => True) (fun s => input.used - s.2.2.1) := by
  refine ⟨fun _ _ _ _ => trivial, fun s s' _ hp => ?_⟩
  obtain ⟨h, cmd, o, buf⟩ := s
  obtain ⟨honward, hok⟩ := readUntilAny_onward h input o buf splitSign
  unfold requestPass at hp
  dsimp only at hp
  split at hp
  · rename_i h1 buf1 o1 heq
    rw [heq] at honward hok
    dsimp only at honward
    split at hp
    · cases hp
    · obtain rfl := Sum.inl.inj hp
      have hlt := hok rfl
      have hnext := lt_next hlt honward.le
      show input.used - next input o1 < input.used - o
      omega
  · cases hp
  · cases hp

/-- `requestLoop` takes the same passes. -/
theorem requestLoop_pass (input : Buffer) (n : Nat) (h : Heap) (cmd : Cmd) (o : Nat) (buf : Buffer) :
    requestLoop input (n + 1) h cmd o buf = (requestPass input (h, cmd, o, buf)).elim
      (fun s => requestLoop input n s.1 s.2.1 s.2.2.1 s.2.2.2) id := by
  rw [requestLoop, requestPass]
  rcases readUntilAny h input o buf splitSign with ⟨e, h1, buf1, o1⟩
  cases e with
  | ok =>
    dsimp only
    split <;> rfl
  | _ => rfl

/-- The loop leaves after no more passes than there are bytes, with what `requestLoop` returns. -/
theorem requestLoop_leaves (input : Buffer) (h : Heap) (cmd : Cmd) (o : Nat) (buf : Buffer) :
    ∃ k, loop (requestPass input) (input.used + 1) (h, cmd, o, buf) =
        some (k, requestLoop input (input.used + 1) h cmd o buf) ∧ k ≤ input.used - o := by
  apply (requestPass_lowers input).runs (f := fun n s => requestLoop input n s.1 s.2.1 s.2.2.1 s.2.2.2)
  · intro n s
    exact requestLoop_pass input n s.1 s.2.1 s.2.2.1 s.2.2.2
  · trivial
  · exact Nat.lt_succ_of_le (Nat.sub_le _ _)

/-- An `OK` has passed the line end. -/
theorem requestLoop_onward (input : Buffer) (n : Nat) : ∀ h cmd o buf,
    Advances input o (requestLoop input n h cmd o buf).2.2.2 ∧
      ((requestLoop input n h cmd o buf).1 = .ok → o < (requestLoop input n h cmd o buf).2.2.2) := by
  induction n with
  | zero => intro h cmd o buf; exact ⟨.refl input o, fun he => by cases he⟩
  | succ n ih =>
    intro h cmd o buf
    obtain ⟨honward, hok⟩ := readUntilAny_onward h input o buf splitSign
    rw [requestLoop]
    rcases hr : readUntilAny h input o buf splitSign with ⟨e, h1, buf1, o1⟩
    rw [hr] at honward hok
    cases e with
    | ok =>
      have hlt := lt_next (hok rfl) honward.le
      have hnext := honward.trans (next_onward input o1)
      dsimp only at hlt hnext ⊢
      split
      · exact ⟨hnext, fun _ => hlt⟩
      · obtain ⟨hrest, hok'⟩ := ih ((buf1.clear (cmd.appendArg h1 buf1).1).1) (cmd.appendArg h1 buf1).2
          (next input o1) ((buf1.clear (cmd.appendArg h1 buf1).1).2)
        exact ⟨hnext.trans hrest, fun he => Nat.lt_trans hlt (hok' he)⟩
    | _ => exact ⟨honward, fun he => by cases he⟩

theorem handleResponse_onward (h : Heap) (input : Buffer) (o : Nat) (buf : Buffer) :
    Advances input o (handleResponse h input o buf).2.2.2 := by
  obtain ⟨honward, _⟩ := readUntil_onward h input o buf LF
  unfold handleResponse
  rcases hr : readUntil h input o buf LF 1 with ⟨e, h1, buf1, o1⟩
  rw [hr] at honward
  cases e with
  | notFound => exact honward
  | _ => exact honward

end InlineParser

/-! ## Multibulk -/

namespace MultibulkParser

open Wire.MultibulkParser (readSize)

theorem readInt32_onward (far : Bytes) (i : Int) (h : Heap) (input : Buffer) (o : Nat) (p : Option Buffer) :
    Advances input o (readInt32 far i h input o p).2.2.2.2 ∧
      ((readInt32 far i h input o p).1 = .ok → o < input.used ∧ o < (readInt32 far i h input o p).2.2.2.2) := by
  obtain ⟨honward, hok⟩ := readUntil_onward h input o .null LF
  unfold readInt32
  rcases hr : readUntil h input o .null LF 1 with ⟨e, h1, buf, o1⟩
  rw [hr] at honward hok
  cases e with
  | ok => exact ⟨honward, hok⟩
  | _ => exact ⟨honward, fun he => by cases he⟩

theorem readLen_onward (far : Bytes) (i : Int) (h : Heap) (input : Buffer) (o : Nat) (p : Option Buffer) :
    Advances input o (readLen far i h input o p).2.2.2.2 ∧ ((readLen far i h input o p).1 = .ok → i = 0 →
      o < input.used ∧ o < (readLen far i h input o p).2.2.2.2) := by
  unfold readLen
  split
  · obtain ⟨honward, hok⟩ := readInt32_onward far i h input o p
    exact ⟨honward, fun he _ => hok he⟩
  · rename_i hne
    exact ⟨.refl input o, fun _ h0 => absurd h0 hne⟩

/-- The bytes left, and one for a length left over. -/
def left (input : Buffer) (m : Wire.MultibulkParser) (o : Nat) : Nat :=
  input.used - o + if m.bulkLen = 0 then 0 else 1

/-- One pass of the loop of `HandleRequest`. -/
def requestPass (far : Bytes) (input : Buffer) : Wire.MultibulkParser × Heap × Cmd × Nat →
    (Wire.MultibulkParser × Heap × Cmd × Nat) ⊕ (Error × Wire.MultibulkParser × Heap × Cmd × Nat)
  | (m, h, cmd, o) =>
    if m.multibulkIndex < m.multibulkLen then
      match readLen far m.bulkLen h input o none with
      | (.ok, len, _, h, o) =>
        match BufferReader.read h input o .null (readSize len) with
        | (.ok, h, buf, o) =>
          let buf := buf.offsetBy 0 (-2)
          let (h, cmd) := cmd.appendArg h buf
          .inl ({ m with multibulkIndex := m.multibulkIndex + 1, bulkLen := 0 }, buf.destroy h, cmd, o)
        | (.outOfBound, h, buf, o) => .inr (.tryAgain, { m with bulkLen := len }, buf.destroy h, cmd, o)
        | (e, h, buf, o) => .inr (e, { m with bulkLen := len }, buf.destroy h, cmd, o)
      | (e, len, _, h, o) => .inr (e, { m with bulkLen := len }, h, cmd, o)
    else .inr (.ok, m, h, cmd, o)

/-- One pass of the loop of `HandleResponse`. -/
def responsePass (far : Bytes) (input : Buffer) : Wire.MultibulkParser × Heap × Buffer × Nat →
    (Wire.MultibulkParser × Heap × Buffer × Nat) ⊕ (Error × Wire.MultibulkParser × Heap × Buffer × Nat)
  | (m, h, pbuf, o) =>
    if m.multibulkIndex < m.multibulkLen then
      match readLen far m.bulkLen h input o (some pbuf) with
      | (.ok, len, pb, h, o) =>
        let pbuf := pb.getD pbuf
        if m.bulkLen = 0 ∧ len ≤ 0 then
          .inl ({ m with multibulkIndex := m.multibulkIndex + 1, bulkLen := 0 }, h, pbuf, o)
        else
          match BufferReader.read h input o pbuf (readSize len) with
          | (.ok, h, pbuf, o) =>
            .inl ({ m with multibulkIndex := m.multibulkIndex + 1, bulkLen := 0 }, h, pbuf, o)
          | (.outOfBound, h, pbuf, o) => .inr (.tryAgain, { m with bulkLen := len }, h, pbuf, o)
          | (e, h, pbuf, o) => .inr (e, { m with bulkLen := len }, h, pbuf, o)
      | (e, len, pb, h, o) => .inr (e, { m with bulkLen := len }, h, pb.getD pbuf, o)
    else .inr (.ok, m, h, pbuf, o)

/-- An element that is done has taken a byte, unless its length was left over. -/
theorem left_lt {m m' : Wire.MultibulkParser} (hm : m'.bulkLen = 0) (hle : o ≤ o')
    (hok : m.bulkLen = 0 → o < input.used ∧ o < o') : left input m' o' < left input m o := by
  unfold left
  rw [if_pos hm]
  split
  · rename_i h0
    obtain ⟨hlt, hlt'⟩ := hok h0
    omega
  · omega

theorem left_le (input : Buffer) (m : Wire.MultibulkParser) (o : Nat) : left input m o ≤ input.used - o + 1 := by
  unfold left
  split <;> omega

theorem requestPass_lowers (far : Bytes) (input : Buffer) :
    Lowers (requestPass far input) (fun _ => True) (fun s => left input s.1 s.2.2.2) := by
  refine ⟨fun _ _ _ _ => trivial, fun s s' _ hp => ?_⟩
  obtain ⟨m, h, cmd, o⟩ := s
  obtain ⟨honward, hok⟩ := readLen_onward far m.bulkLen h input o none
  unfold requestPass at hp
  dsimp only at hp
  split at hp
  · split at hp
    · rename_i len _ h1 o1 heq
      rw [heq] at honward hok
      have hread := read_onward h1 input o1 .null (readSize len)
      split at hp
      · rename_i h2 buf o2 heq'
        rw [heq'] at hread
        obtain rfl := Sum.inl.inj hp
        refine left_lt rfl (honward.trans hread).le fun h0 => ?_
        obtain ⟨hlt, hlt'⟩ := hok rfl h0
        exact ⟨hlt, Nat.lt_of_lt_of_le hlt' hread.le⟩
      · cases hp
      · cases hp
    · cases hp
  · cases hp

theorem responsePass_lowers (far : Bytes) (input : Buffer) :
    Lowers (responsePass far input) (fun _ => True) (fun s => left input s.1 s.2.2.2) := by
  refine ⟨fun _ _ _ _ => trivial, fun s s' _ hp => ?_⟩
  obtain ⟨m, h, pbuf, o⟩ := s
  obtain ⟨honward, hok⟩ := readLen_onward far m.bulkLen h input o (some pbuf)
  unfold responsePass at hp
  dsimp only at hp
  split at hp
  · split at hp
    · rename_i len pb h1 o1 heq
      rw [heq] at honward hok
      split at hp
      · obtain rfl := Sum.inl.inj hp
        exact left_lt rfl honward.le (hok rfl)
      · have hread := read_onward h1 input o1 (pb.getD pbuf) (readSize len)
        split at hp
        · rename_i h2 buf o2 heq'
          rw [heq'] at hread
          obtain rfl := Sum.inl.inj hp
          refine left_lt rfl (honward.trans hread).le fun h0 => ?_
          obtain ⟨hlt, hlt'⟩ := hok rfl h0
          exact ⟨hlt, Nat.lt_of_lt_of_le hlt' hread.le⟩
        · cases hp
        · cases hp
    · cases hp
  · cases hp

/-- What is left of the declared count, as `requestLoop` and `responseLoop` are given it. -/
def toDo (m : Wire.MultibulkParser) : Nat := (m.multibulkLen - m.multibulkIndex).toNat

theorem toDo_succ {m : Wire.MultibulkParser} (hlt : m.multibulkIndex < m.multibulkLen) :
    toDo m = toDo { m with multibulkIndex := m.multibulkIndex + 1, bulkLen := 0 } + 1 := by
  unfold toDo
  dsimp only
  omega

theorem toDo_zero {m : Wire.MultibulkParser} (hle : ¬ m.multibulkIndex < m.multibulkLen) : toDo m = 0 := by
  unfold toDo
  omega

theorem requestLoop_pass (far : Bytes) (input : Buffer) (m : Wire.MultibulkParser) (h : Heap) (cmd : Cmd) (o : Nat) :
    requestLoop far input (toDo m) m h cmd o = (requestPass far input (m, h, cmd, o)).elim
      (fun s => requestLoop far input (toDo s.1) s.1 s.2.1 s.2.2.1 s.2.2.2) id := by
  rw [requestPass]
  by_cases hlt : m.multibulkIndex < m.multibulkLen
  · rw [if_pos hlt, toDo_succ hlt, requestLoop]
    rcases readLen far m.bulkLen h input o none with ⟨e, len, pb, h1, o1⟩
    cases e with
    | ok =>
      dsimp only
      rcases BufferReader.read h1 input o1 .null (readSize len) with ⟨e, h2, buf, o2⟩
      cases e <;> rfl
    | _ => rfl
  · rw [if_neg hlt, toDo_zero hlt]
    rfl

theorem responseLoop_pass (far : Bytes) (input : Buffer) (m : Wire.MultibulkParser) (h : Heap) (pbuf : Buffer)
    (o : Nat) :
    responseLoop far input (toDo m) m h pbuf o = (responsePass far input (m, h, pbuf, o)).elim
      (fun s => responseLoop far input (toDo s.1) s.1 s.2.1 s.2.2.1 s.2.2.2) id := by
  rw [responsePass]
  by_cases hlt : m.multibulkIndex < m.multibulkLen
  · rw [if_pos hlt, toDo_succ hlt, responseLoop]
    rcases readLen far m.bulkLen h input o (some pbuf) with ⟨e, len, pb, h1, o1⟩
    cases e with
    | ok =>
      dsimp only
      split
      · rfl
      · rcases BufferReader.read h1 input o1 (pb.getD pbuf) (readSize len) with ⟨e, h2, buf, o2⟩
        cases e <;> rfl
    | _ => rfl
  · rw [if_neg hlt, toDo_zero hlt]
    rfl

/-- The loop leaves after no more passes than there are bytes and one, whatever the count,
    with what `requestLoop` returns. -/
theorem requestLoop_leaves (far : Bytes) (input : Buffer) (m : Wire.MultibulkParser) (h : Heap) (cmd : Cmd) (o : Nat) :
    ∃ k, loop (requestPass far input) (input.used - o + 2) (m, h, cmd, o) =
        some (k, requestLoop far input (toDo m) m h cmd o) ∧ k ≤ input.used - o + 1 := by
  have hbound := left_le input m o
  obtain ⟨k, hk, hle⟩ := (requestPass_lowers far input).runs
    (f := fun _ s => requestLoop far input (toDo s.1) s.1 s.2.1 s.2.2.1 s.2.2.2)
    (fun _ s => requestLoop_pass far input s.1 s.2.1 s.2.2.1 s.2.2.2) (s := (m, h, cmd, o)) trivial
    (Nat.lt_succ_of_le hbound)
  exact ⟨k, hk, Nat.le_trans hle hbound⟩

theorem responseLoop_leaves (far : Bytes) (input : Buffer) (m : Wire.MultibulkParser) (h : Heap) (pbuf : Buffer)
    (o : Nat) :
    ∃ k, loop (responsePass far input) (input.used - o + 2) (m, h, pbuf, o) =
        some (k, responseLoop far input (toDo m) m h pbuf o) ∧ k ≤ input.used - o + 1 := by
  have hbound := left_le input m o
  obtain ⟨k, hk, hle⟩ := (responsePass_lowers far input).runs
    (f := fun _ s => responseLoop far input (toDo s.1) s.1 s.2.1 s.2.2.1 s.2.2.2)
    (fun _ s => responseLoop_pass far input s.1 s.2.1 s.2.2.1 s.2.2.2) (s := (m, h, pbuf, o)) trivial
    (Nat.lt_succ_of_le hbound)
  exact ⟨k, hk, Nat.le_trans hle hbound⟩

theorem requestLoop_onward (far : Bytes) (input : Buffer) (n : Nat) : ∀ m h cmd o,
    Advances input o (requestLoop far input n m h cmd o).2.2.2.2 := by
  induction n with
  | zero => intro m h cmd o; exact .refl input o
  | succ n ih =>
    intro m h cmd o
    obtain ⟨honward, _⟩ := readLen_onward far m.bulkLen h input o none
    rw [requestLoop]
    rcases hr : readLen far m.bulkLen h input o none with ⟨e, len, pb, h1, o1⟩
    rw [hr] at honward
    cases e with
    | ok =>
      have hread := honward.trans (read_onward h1 input o1 .null (readSize len))
      dsimp only
      rcases hr' : BufferReader.read h1 input o1 .null (readSize len) with ⟨e, h2, buf, o2⟩
      rw [hr'] at hread
      cases e with
      | ok => exact hread.trans (ih _ _ _ _)
      | _ => exact hread
    | _ => exact honward

/-- An `OK` of a call that read the count has passed its line. -/
theorem handleRequest_onward (far : Bytes) (m : Wire.MultibulkParser) (h : Heap) (input : Buffer) (o : Nat)
    (cmd : Cmd) :
    Advances input o (handleRequest far m h input o cmd).2.2.2.2 ∧
      ((handleRequest far m h input o cmd).1 = .ok → m.multibulkLen = 0 →
        o < (handleRequest far m h input o cmd).2.2.2.2) := by
  obtain ⟨honward, hok⟩ := readLen_onward far m.multibulkLen h input o none
  rw [handleRequest]
  rcases hr : readLen far m.multibulkLen h input o none with ⟨e, len, pb, h1, o1⟩
  rw [hr] at honward hok
  cases e with
  | ok =>
    have hloop := requestLoop_onward far input (len - m.multibulkIndex).toNat { m with multibulkLen := len } h1 cmd o1
    exact ⟨honward.trans hloop, fun _ h0 => Nat.lt_of_lt_of_le (hok rfl h0).2 hloop.le⟩
  | _ => exact ⟨honward, fun he => by cases he⟩

theorem responseLoop_onward (far : Bytes) (input : Buffer) (n : Nat) : ∀ m h pbuf o,
    Advances input o (responseLoop far input n m h pbuf o).2.2.2.2 := by
  induction n with
  | zero => intro m h pbuf o; exact .refl input o
  | succ n ih =>
    intro m h pbuf o
    obtain ⟨honward, _⟩ := readLen_onward far m.bulkLen h input o (some pbuf)
    rw [responseLoop]
    rcases hr : readLen far m.bulkLen h input o (some pbuf) with ⟨e, len, pb, h1, o1⟩
    rw [hr] at honward
    cases e with
    | ok =>
      dsimp only
      split
      · exact honward.trans (ih _ _ _ _)
      · have hread := honward.trans (read_onward h1 input o1 (pb.getD pbuf) (readSize len))
        rcases hr' : BufferReader.read h1 input o1 (pb.getD pbuf) (readSize len) with ⟨e, h2, pbuf2, o2⟩
        rw [hr'] at hread
        cases e with
        | ok => exact hread.trans (ih _ _ _ _)
        | _ => exact hread
    | _ => exact honward

theorem readCount_onward (far : Bytes) (m : Wire.MultibulkParser) (h : Heap) (input : Buffer) (o : Nat)
    (pbuf : Buffer) :
    Advances input o (readCount far m h input o pbuf).2.2.2.2 := by
  unfold readCount
  split
  · split
    · exact (readInt32_onward far m.multibulkLen h input o (some pbuf)).1
    · exact .refl input o
  · exact .refl input o

theorem handleResponse_onward (far : Bytes) (m : Wire.MultibulkParser) (h : Heap) (input : Buffer) (o : Nat)
    (pbuf : Buffer) : Advances input o (handleResponse far m h input o pbuf).2.2.2.2 := by
  have honward := readCount_onward far m h input o pbuf
  rw [handleResponse]
  rcases hr : readCount far m h input o pbuf with ⟨e, len, pb, h1, o1⟩
  rw [hr] at honward
  cases e with
  | ok => exact honward.trans (responseLoop_onward far input _ _ _ _ _)
  | _ => exact honward

end MultibulkParser

/-! ## One call -/

namespace CmdParser

/-- What `Reset()` clears is there. -/
def Leftover (p : CmdParser) : Prop := p.parseType ≠ .none ∨ p.multibulkParser ≠ .reset

instance (p : CmdParser) : Decidable p.Leftover := inferInstanceAs (Decidable (_ ∨ _))

theorem leftover_reset (p : CmdParser) : ¬ p.reset.Leftover := fun h => h.elim (fun hn => hn rfl) (fun hn => hn rfl)

/-- The input handed over begins where the reader stood. -/
theorem handOver_onward {p : CmdParser} (hp : p.inputb.Placed) (hle : p.inputbr ≤ p.inputb.used)
    (ho : Onward p.inputb p.inputbr o) : (p.handOver o).inputb.Placed ∧
      (p.handOver o).inputb.used ≤ p.inputb.used ∧ (p.inputbr < o → (p.handOver o).inputb.used < p.inputb.used) := by
  unfold handOver
  split
  · rename_i he
    exact ⟨hp, Nat.le_refl _, fun hlt => absurd he (Nat.ne_of_lt hlt)⟩
  · have hlast := ho.within hp hle
    have hlt := hp.used_lt
    have h1 := hp.offset_le
    have h2 := hp.size_lt
    have hused : p.inputb.used = p.inputb.size - p.inputb.offset := rfl
    rw [offsetBy_near h1 h2 hlast (by omega)]
    refine ⟨⟨?_, h2, ?_⟩, ?_, fun hlt => ?_⟩
    · show p.inputb.offset + o ≤ p.inputb.size
      omega
    · show p.inputb.size - (p.inputb.offset + o) < 2 ^ 31
      omega
    · show p.inputb.size - (p.inputb.offset + o) ≤ p.inputb.used
      omega
    · show p.inputb.size - (p.inputb.offset + o) < p.inputb.used
      omega

/-- What a call does to the input, whatever the parser; a call on one that has nothing left
    over takes at least a byte for its `OK`. -/
theorem parseRequest_onward {p : CmdParser} (hp : p.inputb.Placed) (far : Bytes) (h : Heap) (cmd : Cmd) :
    (p.parseRequest far h cmd).2.2.1.inputb.Placed ∧
      (p.parseRequest far h cmd).2.2.1.inputb.used ≤ p.inputb.used ∧
      ((p.parseRequest far h cmd).1 = .ok → ¬ p.Leftover →
        (p.parseRequest far h cmd).2.2.1.inputb.used < p.inputb.used) := by
  unfold parseRequest
  by_cases hend : eof p.inputb p.inputbr = true
  · rw [if_pos hend]
    exact ⟨hp, Nat.le_refl _, fun he => by cases he⟩
  rw [if_neg hend]
  have hle := Nat.le_of_lt (lt_of_not_eof hend)
  dsimp only
  generalize (if p.parseType = .none then _ else p.parseType) = type
  split
  · obtain ⟨honward, hok⟩ := MultibulkParser.handleRequest_onward far p.multibulkParser h p.inputb p.inputbr cmd
    obtain ⟨hplaced, hused, hlt⟩ := handOver_onward (p := ⟨type,
      (MultibulkParser.handleRequest far p.multibulkParser h p.inputb p.inputbr cmd).2.1, p.inputb, p.inputbr⟩)
      hp hle honward.onward
    refine ⟨hplaced, hused, fun he hno => hlt (hok he ?_)⟩
    have hm : p.multibulkParser = .reset := by
      by_contra hm
      exact hno (Or.inr hm)
    rw [hm]
    rfl
  · obtain ⟨honward, hok⟩ := InlineParser.requestLoop_onward p.inputb (p.inputb.used + 1) h cmd p.inputbr .null
    obtain ⟨hplaced, hused, hlt⟩ :=
      handOver_onward (p := ⟨type, p.multibulkParser, p.inputb, p.inputbr⟩) hp hle honward.onward
    exact ⟨hplaced, hused, fun he _ => hlt (hok he)⟩

end CmdParser

/-- The loops inside a call on this input: what they leave with is what the call goes on with. -/
structure CallLoops (far : Bytes) (input : Buffer) : Prop where
  inline : ∀ h cmd o buf, ∃ k, loop (InlineParser.requestPass input) (input.used + 1) (h, cmd, o, buf) =
    some (k, InlineParser.requestLoop input (input.used + 1) h cmd o buf) ∧ k ≤ input.used - o
  request : ∀ m h cmd o, ∃ k, loop (MultibulkParser.requestPass far input) (input.used - o + 2) (m, h, cmd, o) =
    some (k, MultibulkParser.requestLoop far input (MultibulkParser.toDo m) m h cmd o) ∧ k ≤ input.used - o + 1
  response : ∀ m h pbuf o, ∃ k, loop (MultibulkParser.responsePass far input) (input.used - o + 2) (m, h, pbuf, o) =
    some (k, MultibulkParser.responseLoop far input (MultibulkParser.toDo m) m h pbuf o) ∧ k ≤ input.used - o + 1

theorem callLoops (far : Bytes) (input : Buffer) : CallLoops far input :=
  ⟨InlineParser.requestLoop_leaves input, MultibulkParser.requestLoop_leaves far input,
    MultibulkParser.responseLoop_leaves far input⟩

end RedisProxy.Mem
