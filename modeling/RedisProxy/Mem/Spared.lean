/-
  RedisProxy.Mem.Spared — calls that no allocation was refused.

  `Spared h h'`: every allocation made on the way from `h` to `h'` was granted. Such a call
  does what it does on the heap that grants everything (`Heap.given`), for which `Mem.Reader`
  and `Mem.Replies` say what that is.

  Proved, bottom up: so it is for the operations of a buffer, the reader and the reply parser
  (`tame_append`, `tame_readUntil`, `tame_read`, `tame_responseLoop`, `tame_parseResponse`).
-/

import RedisProxy.Mem.Parser
import RedisProxy.Mem.Scarce

namespace RedisProxy.Mem

open Lib.Decimal Wire

def Spared (h h' : Heap) : Prop := ∀ k, h.next ≤ k → k < h'.next → h.supply k ≠ none

/-- From `h` to `h'`; a spared call has `same`. -/
structure Tame (h h' : Heap) (same : Prop) : Prop where
  supply : h'.supply = h.supply
  next : h.next ≤ h'.next
  same : Spared h h' → same

variable {h h' h'' : Heap} {p q : Prop} {input dst b : Buffer} {o : Nat}

theorem Tame.trans (h1 : Tame h h' p) (h2 : Tame h' h'' q) : Tame h h'' (p ∧ q) := by
  refine ⟨h2.supply.trans h1.supply, Nat.le_trans h1.next h2.next, fun hs => ⟨h1.same ?_, h2.same ?_⟩⟩
  · intro k hk hlt
    exact hs k hk (Nat.lt_of_lt_of_le hlt h2.next)
  · intro k hk hlt
    rw [h1.supply]
    exact hs k (Nat.le_trans h1.next hk) hlt

theorem Tame.mono (ht : Tame h h' p) (hpq : p → q) : Tame h h' q :=
  ⟨ht.supply, ht.next, fun hs => hpq (ht.same hs)⟩

theorem tame_refl (h : Heap) (hp : p) : Tame h h p := ⟨rfl, Nat.le_refl _, fun _ => hp⟩

/-- A call that allocates nothing. -/
theorem tame_idle (hs : h'.supply = h.supply) (hn : h'.next = h.next) (hp : p) : Tame h h' p :=
  ⟨hs, Nat.le_of_eq hn.symm, fun _ => hp⟩

theorem Spared.trans (hs : h'.supply = h.supply) (h1 : Spared h h') (h2 : Spared h' h'') : Spared h h'' := by
  intro k hk hlt
  by_cases hk' : k < h'.next
  · exact h1 k hk hk'
  · rw [← hs]
    exact h2 k (Nat.le_of_not_lt hk') hlt

theorem spared_idle (hn : h'.next = h.next) : Spared h h' := by
  intro k hk hlt
  omega

/-! ## Buffers -/

theorem tame_release (h : Heap) (d : Option Nat) :
    Tame h (h.release d) (h.given.release d = (h.release d).given) := by
  have hsupply : (h.release d).supply = h.supply := by
    cases d with
    | none => rfl
    | some a => exact supply_descRef h a
  exact tame_idle hsupply (next_release h d) (given_release h d).symm

theorem tame_acquire (h : Heap) (d : Option Nat) :
    Tame h (h.acquire d) (h.given.acquire d = (h.acquire d).given) := by
  have hsupply : (h.acquire d).supply = h.supply := by
    cases d with
    | none => rfl
    | some a => exact supply_incrRef h a
  exact tame_idle hsupply (next_acquire h d) (given_acquire h d).symm

theorem tame_incr (h : Heap) (d : Option Nat) : Tame h (h.incr d) (h.given.incr d = (h.incr d).given) := by
  cases d with
  | none => exact tame_idle rfl rfl rfl
  | some a => exact tame_acquire h (some a)

theorem tame_writeTail (h : Heap) (b : Buffer) (l : Bytes) :
    Tame h (b.writeTail h l) (b.writeTail h.given l = (b.writeTail h l).given) :=
  tame_idle (wrote_tail h b l).supply (wrote_tail h b l).next (given_writeTail h b l).symm

/-- A refused allocation is not spared. -/
theorem not_spared (h0 : h.supply h.next = none) : ¬ Spared h h.denied :=
  fun hs => hs h.next (Nat.le_refl _) (Nat.lt_succ_self _) h0

theorem tame_grow (h : Heap) (b : Buffer) (n : Nat) : Tame h (b.appendCapacity h n).2.1
    (b.appendCapacity h.given n =
      ((b.appendCapacity h n).1, (b.appendCapacity h n).2.1.given, (b.appendCapacity h n).2.2)) := by
  by_cases hn : b.Asks h n
  · by_cases h0 : h.supply h.next = none
    · rw [appendCapacity_refused hn h0]
      exact ⟨rfl, Nat.le_succ _, fun hs => absurd hs (not_spared h0)⟩
    · obtain ⟨h', b', he, he', hnext, hsupply, _⟩ := appendCapacity_granted hn h0
      rw [he, he']
      exact ⟨hsupply, by rw [hnext]; exact Nat.le_succ _, fun _ => rfl⟩
  · obtain ⟨h', b', he, he', hnext, hsupply, _⟩ := appendCapacity_spare hn
    rw [he, he']
    exact tame_idle hsupply hnext rfl

theorem tame_appendBytes (h : Heap) (b : Buffer) (l : Bytes) : Tame h (b.appendBytes h l).2.1
    (b.appendBytes h.given l = ((b.appendBytes h l).1, (b.appendBytes h l).2.1.given, (b.appendBytes h l).2.2)) := by
  have hgrow := tame_grow h b l.length
  unfold Buffer.appendBytes
  rw [grown_eq, grown_eq]
  rcases he : b.appendCapacity h l.length with ⟨e, h1, b1⟩
  rw [he] at hgrow
  cases e with
  | ok =>
    refine (hgrow.trans (tame_writeTail h1 b1 l)).mono fun hsame => ?_
    rw [hsame.1]
    dsimp only
    rw [hsame.2]
    rfl
  | _ =>
    refine hgrow.mono fun hsame => ?_
    rw [hsame]

theorem tame_append (h : Heap) (b src : Buffer) (n : Nat) : Tame h (b.append h src n).2.1
    (b.append h.given src n = ((b.append h src n).1, (b.append h src n).2.1.given, (b.append h src n).2.2)) := by
  unfold Buffer.append
  split
  · exact tame_refl h rfl
  · dsimp only
    cases b.data with
    | none =>
      refine (tame_incr h src.data).mono fun hsame => ?_
      dsimp only
      rw [hsame]
    | some a =>
      dsimp only
      split
      · exact tame_refl h rfl
      · exact tame_appendBytes h b _

/-! ## The reader -/

namespace BufferReader

theorem tame_tmpBuffer (h : Heap) (input : Buffer) (o : Nat) : Tame h (tmpBuffer h input o).1
    (tmpBuffer h.given input o = ((tmpBuffer h input o).1.given, (tmpBuffer h input o).2)) :=
  (tame_acquire h input.data).mono fun hsame => Prod.ext hsame rfl

theorem tame_take (h : Heap) (tmp dst : Buffer) (o i : Nat) : Tame h (take h tmp dst o i).2.1
    (take h.given tmp dst o i =
      ((take h tmp dst o i).1, (take h tmp dst o i).2.1.given, (take h tmp dst o i).2.2)) := by
  have happ := tame_append h dst tmp i
  unfold take
  rcases he : dst.append h tmp i with ⟨e, h1, d⟩
  rw [he] at happ
  have hdone := happ.trans (tame_release h1 tmp.data)
  cases e with
  | ok =>
    refine hdone.mono fun hsame => ?_
    rw [hsame.1]
    exact congrArg (fun h' => (Error.ok, h', d, o + i)) hsame.2
  | _ =>
    refine hdone.mono fun hsame => ?_
    rw [hsame.1]
    exact congrArg (fun h' => (_, h', d, o)) hsame.2

theorem tame_readUntil (h : Heap) (input : Buffer) (o : Nat) (dst : Buffer) (ch : Byte) (extend : Nat) :
    Tame h (readUntil h input o dst ch extend).2.1
      (readUntil h.given input o dst ch extend = ((readUntil h input o dst ch extend).1,
        (readUntil h input o dst ch extend).2.1.given, (readUntil h input o dst ch extend).2.2)) := by
  unfold readUntil
  split
  · exact tame_refl h rfl
  · have htmp := tame_tmpBuffer h input o
    rcases he : tmpBuffer h input o with ⟨h1, tmp⟩
    rw [he] at htmp
    dsimp only
    cases hf : memchr (tmp.contents h1) ch with
    | none =>
      refine (htmp.trans (tame_release h1 tmp.data)).mono fun hsame => ?_
      rw [hsame.1]
      dsimp only
      rw [show memchr (tmp.contents h1.given) ch = none from hf]
      exact congrArg (fun h' => (Error.notFound, h', dst, o)) hsame.2
    | some i =>
      refine (htmp.trans (tame_take h1 tmp dst o (i + extend))).mono fun hsame => ?_
      rw [hsame.1]
      dsimp only
      rw [show memchr (tmp.contents h1.given) ch = some i from hf]
      exact hsame.2

theorem tame_read (h : Heap) (input : Buffer) (o : Nat) (dst : Buffer) (n : Nat) : Tame h (read h input o dst n).2.1
    (read h.given input o dst n = ((read h input o dst n).1, (read h input o dst n).2.1.given,
      (read h input o dst n).2.2)) := by
  unfold read
  split
  · exact tame_refl h rfl
  · split
    · exact tame_refl h rfl
    · have htmp := tame_tmpBuffer h input o
      rcases he : tmpBuffer h input o with ⟨h1, tmp⟩
      rw [he] at htmp
      refine (htmp.trans (tame_take h1 tmp dst o n)).mono fun hsame => ?_
      rw [hsame.1]
      exact hsame.2

end BufferReader

/-! ## The reply parser -/

namespace InlineParser

theorem tame_handleResponse (h : Heap) (input : Buffer) (o : Nat) (buf : Buffer) :
    Tame h (handleResponse h input o buf).2.1 (handleResponse h.given input o buf =
      ((handleResponse h input o buf).1, (handleResponse h input o buf).2.1.given,
        (handleResponse h input o buf).2.2)) := by
  have hread := BufferReader.tame_readUntil h input o buf LF 1
  unfold handleResponse
  rcases he : BufferReader.readUntil h input o buf LF 1 with ⟨e, h1, b1, o1⟩
  rw [he] at hread
  cases e <;>
  · refine hread.mono fun hsame => ?_
    rw [hsame]

end InlineParser

namespace MultibulkParser

open Wire.MultibulkParser (readSize)

variable (far : Bytes)

theorem tame_appendLine (h : Heap) (buf : Buffer) (p : Option Buffer) : Tame h (appendLine h buf p).1
    (appendLine h.given buf p = ((appendLine h buf p).1.given, (appendLine h buf p).2)) := by
  cases p with
  | none => exact tame_refl h rfl
  | some p =>
    refine (tame_appendBytes h p (buf.contents h)).mono fun hsame => ?_
    unfold appendLine
    dsimp only
    rw [show buf.contents h.given = buf.contents h from rfl, hsame]

theorem tame_readInt32 (i : Int) (h : Heap) (input : Buffer) (o : Nat) (p : Option Buffer) :
    Tame h (readInt32 far i h input o p).2.2.2.1 (readInt32 far i h.given input o p =
      ((readInt32 far i h input o p).1, (readInt32 far i h input o p).2.1, (readInt32 far i h input o p).2.2.1,
        (readInt32 far i h input o p).2.2.2.1.given, (readInt32 far i h input o p).2.2.2.2)) := by
  have hread := BufferReader.tame_readUntil h input o .null LF 1
  unfold readInt32
  rcases he : BufferReader.readUntil h input o .null LF 1 with ⟨e, h1, buf, o1⟩
  rw [he] at hread
  cases e with
  | ok =>
    have hline := tame_appendLine h1 buf p
    rcases hl : appendLine h1 buf p with ⟨h2, p2⟩
    rw [hl] at hline
    dsimp only
    rw [hl]
    refine ((hread.trans hline).trans (tame_release h2 buf.data)).mono fun hsame => ?_
    rw [hsame.1.1]
    dsimp only
    rw [hsame.1.2]
    exact congrArg (fun h' => (Error.ok, parseInt32 h2 buf 1 far, p2, h', o1)) hsame.2
  | notFound =>
    refine (hread.trans (tame_release h1 buf.data)).mono fun hsame => ?_
    rw [hsame.1]
    exact congrArg (fun h' => (Error.tryAgain, i, p, h', o1)) hsame.2
  | _ =>
    refine (hread.trans (tame_release h1 buf.data)).mono fun hsame => ?_
    rw [hsame.1]
    exact congrArg (fun h' => (_, i, p, h', o1)) hsame.2

theorem tame_readLen (i : Int) (h : Heap) (input : Buffer) (o : Nat) (p : Option Buffer) :
    Tame h (readLen far i h input o p).2.2.2.1 (readLen far i h.given input o p =
      ((readLen far i h input o p).1, (readLen far i h input o p).2.1, (readLen far i h input o p).2.2.1,
        (readLen far i h input o p).2.2.2.1.given, (readLen far i h input o p).2.2.2.2)) := by
  unfold readLen
  split
  · exact tame_readInt32 far i h input o p
  · exact tame_refl h rfl

theorem tame_responseLoop (input : Buffer) (n : Nat) : ∀ (m : Wire.MultibulkParser) (h : Heap) (p : Buffer) (o : Nat),
    Tame h (responseLoop far input n m h p o).2.2.1 (responseLoop far input n m h.given p o =
      ((responseLoop far input n m h p o).1, (responseLoop far input n m h p o).2.1,
        (responseLoop far input n m h p o).2.2.1.given, (responseLoop far input n m h p o).2.2.2)) := by
  induction n with
  | zero => intro m h p o; exact tame_refl h rfl
  | succ n ih =>
    intro m h p o
    have hlen := tame_readLen far m.bulkLen h input o (some p)
    rw [responseLoop, responseLoop]
    rcases hl : readLen far m.bulkLen h input o (some p) with ⟨e, len, pb, h1, o1⟩
    rw [hl] at hlen
    cases e with
    | ok =>
      dsimp only
      by_cases hitem : m.bulkLen = 0 ∧ len ≤ 0
      · rw [if_pos hitem]
        refine (hlen.trans (ih _ h1 (pb.getD p) o1)).mono fun hsame => ?_
        rw [hsame.1]
        dsimp only
        rw [if_pos hitem, hsame.2]
      · rw [if_neg hitem]
        have hread := BufferReader.tame_read h1 input o1 (pb.getD p) (readSize len)
        rcases hr : BufferReader.read h1 input o1 (pb.getD p) (readSize len) with ⟨e, h2, p2, o2⟩
        rw [hr] at hread
        cases e with
        | ok =>
          refine ((hlen.trans hread).trans (ih _ h2 p2 o2)).mono fun hsame => ?_
          rw [hsame.1.1]
          dsimp only
          rw [if_neg hitem, hsame.1.2]
          dsimp only
          rw [hsame.2]
        | _ =>
          refine (hlen.trans hread).mono fun hsame => ?_
          rw [hsame.1]
          dsimp only
          rw [if_neg hitem, hsame.2]
    | _ =>
      refine hlen.mono fun hsame => ?_
      rw [hsame]

theorem tame_readCount (m : Wire.MultibulkParser) (h : Heap) (input : Buffer) (o : Nat) (p : Buffer) :
    Tame h (readCount far m h input o p).2.2.2.1 (readCount far m h.given input o p =
      ((readCount far m h input o p).1, (readCount far m h input o p).2.1, (readCount far m h input o p).2.2.1,
        (readCount far m h input o p).2.2.2.1.given, (readCount far m h input o p).2.2.2.2)) := by
  unfold readCount
  rw [show BufferReader.current h.given input o = BufferReader.current h input o from rfl]
  split
  · split
    · exact tame_readInt32 far m.multibulkLen h input o (some p)
    · exact tame_refl h rfl
  · exact tame_refl h rfl

theorem tame_handleResponse (m : Wire.MultibulkParser) (h : Heap) (input : Buffer) (o : Nat) (p : Buffer) :
    Tame h (handleResponse far m h input o p).2.2.1 (handleResponse far m h.given input o p =
      ((handleResponse far m h input o p).1, (handleResponse far m h input o p).2.1,
        (handleResponse far m h input o p).2.2.1.given, (handleResponse far m h input o p).2.2.2)) := by
  have hcount := tame_readCount far m h input o p
  unfold handleResponse
  rcases hc : readCount far m h input o p with ⟨e, len, pb, h1, o1⟩
  rw [hc] at hcount
  cases e with
  | ok =>
    have hloop := tame_responseLoop far input (len - m.multibulkIndex).toNat { m with multibulkLen := len } h1
      (pb.getD p) o1
    refine (hcount.trans hloop).mono fun hsame => ?_
    rw [hsame.1]
    exact hsame.2
  | _ =>
    refine hcount.mono fun hsame => ?_
    rw [hsame]

end MultibulkParser

namespace CmdParser

theorem tame_parseResponse (far : Bytes) (h : Heap) (P : CmdParser) (resp : Buffer) :
    Tame h (P.parseResponse far h resp).2.1 (P.parseResponse far h.given resp =
      ((P.parseResponse far h resp).1, (P.parseResponse far h resp).2.1.given, (P.parseResponse far h resp).2.2)) := by
  unfold parseResponse
  rw [show BufferReader.current h.given P.inputb P.inputbr = BufferReader.current h P.inputb P.inputbr from rfl]
  split
  · exact tame_refl h rfl
  · dsimp only
    generalize (if P.parseType = .none then _ else P.parseType) = type
    split
    · exact tame_refl h rfl
    · split
      · have hmulti := MultibulkParser.tame_handleResponse far P.multibulkParser h P.inputb P.inputbr resp
        refine hmulti.mono fun hsame => ?_
        rw [hsame]
      · have hinline := InlineParser.tame_handleResponse h P.inputb P.inputbr resp
        refine hinline.mono fun hsame => ?_
        rw [hsame]

end CmdParser

end RedisProxy.Mem
