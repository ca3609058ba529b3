/-
  RedisProxy.Mem.Requests — requests over the heap: the input grows, moves and is read, and
  what is read are the arguments.

  In the multibulk mode an item of length -2 passes no byte: it is a share of all that is
  unread. Its header has passed some, and the next one will (`slack`).

  Proved: every request call does on the bytes what `Wire.CmdParser` says
  (`parseRequest_view`); over every run, an argument holds what it held until the command is
  reset (`arguments_stable`).
-/

import RedisProxy.Lib.Runs
import RedisProxy.Mem.Arguments
import RedisProxy.Wire.Inline

namespace RedisProxy.Mem

open Lib Lib.Runs Lib.Cells Lib.Decimal Wire
open Wire.MultibulkParser (readSize)

variable {h h' : Heap} {input buf : Buffer} {live rest : List Buffer} {c c' : Cmd} {o o' B : Nat}

/-! ## Inline -/

namespace InlineParser

/-- What the loop leaves: `w` is what `Wire` says. -/
structure Asks (h : Heap) (input : Buffer) (rest : List Buffer) (c : Cmd) (B : Nat)
    (w : Error × Wire.Cmd × Wire.BufferReader) (r : Error × Heap × Cmd × Nat) : Prop where
  err : r.1 = w.1
  took : Took h input rest c w.2.1 w.2.2 r.2.1 r.2.2.1 r.2.2.2
  held : Held input r.2.2.1.argv rest (B + r.2.2.2)

theorem Asks.after {d : Wire.Cmd} {q : Wire.BufferReader} {w : Error × Wire.Cmd × Wire.BufferReader}
    {r : Error × Heap × Cmd × Nat} (ht : Took h input rest c d q h' c' o') (hr : Asks h' input rest c' B w r) :
    Asks h input rest c B w r := ⟨hr.err, ht.trans hr.took, hr.held⟩

/-- A word has been read, and stands before its separator. -/
structure Word (h : Heap) (input : Buffer) (live : List Buffer) (o : Nat) (line : Bytes) (h' : Heap) (buf : Buffer)
    (o' : Nat) : Prop where
  contents : buf.contents h' = line
  sound : Sound h' (buf :: input :: live)
  same : Same h h' (input :: live)
  data : buf.data = input.data
  size : buf.size ≤ input.size
  le : o' ≤ input.used
  progress : o < BufferReader.next input o'
  current : BufferReader.current h' input o' = (⟨input.contents h, o'⟩ : Wire.BufferReader).current
  last : BufferReader.last h' input o' = (⟨input.contents h, o'⟩ : Wire.BufferReader).last
  next : (⟨input.contents h, o'⟩ : Wire.BufferReader).next = ⟨input.contents h, BufferReader.next input o'⟩

theorem read_word (hr : Reading h input live .null o) (ho : o ≤ input.used)
    (hx : BufferReader.readUntilAny h input o .null splitSign = (.ok, h', buf, o')) :
    ∃ line, (⟨input.contents h, o⟩ : Wire.BufferReader).readUntilAny [] splitSign =
      (.ok, line, ⟨input.contents h, o'⟩) ∧ Word h input live o line h' buf o' := by
  have hu := BufferReader.reads_untilAny hr splitSign
  rw [hx, show Buffer.null.contents h = [] from rfl] at hu
  rcases hW : (⟨input.contents h, o⟩ : Wire.BufferReader).readUntilAny [] splitSign with ⟨e, line, r⟩
  rw [hW] at hu
  obtain rfl : .ok = e := hu.err
  obtain rfl : r = ⟨input.contents h, o'⟩ := hu.reader
  have hs : Sound h' (buf :: input :: live) := hu.sound
  have hsi := sound_swap hs
  have hc : input.contents h' = input.contents h := hu.same.contents List.mem_cons_self
  obtain ⟨hd, _, hsize⟩ := hu.slice rfl rfl
  refine ⟨line, rfl, hu.contents, hs, hu.same, hd, hsize, hu.le ho, ?_, ?_, ?_, ?_⟩
  · have hp := (Wire.InlineParser.readUntilAny_progress hW).2
    rwa [← hc, BufferReader.next_view hsi] at hp
  · rw [← hc, BufferReader.current_view hsi]
  · unfold BufferReader.last Wire.BufferReader.last
    rw [hc]
  · rw [← hc, BufferReader.next_view hsi]

/-- No separator is there, or no byte. -/
theorem read_noWord (hs : Sound h (input :: (c.argv ++ rest))) (hh : Held input c.argv rest (B + o))
    (ho : o ≤ input.used) {e : Error} (hne : e ≠ .ok)
    (hx : BufferReader.readUntilAny h input o .null splitSign = (e, h', buf, o')) :
    (⟨input.contents h, o⟩ : Wire.BufferReader).readUntilAny [] splitSign = (e, [], ⟨input.contents h, o'⟩) ∧
      Took h input rest c (c.view h) ⟨input.contents h, o'⟩ (buf.destroy h') c o' ∧
      Held input c.argv rest (B + o') := by
  have hu := BufferReader.reads_untilAny (hh.reading hs o) splitSign
  rw [hx, show Buffer.null.contents h = [] from rfl] at hu
  obtain rfl : buf = .null := hu.failed hne
  exact ⟨Prod.ext hu.err.symm (Prod.ext hu.contents.symm hu.reader),
    took_nothing hu.same (sound_drop hu.sound rfl) (hu.le ho), hh.mono (Nat.add_le_add_left hu.onward _)⟩

theorem requestLoop_view (hB : B + input.used < 2 ^ 31) (n : Nat) : ∀ (h : Heap) (c : Cmd) (o : Nat),
    Sound h (input :: (c.argv ++ rest)) → Held input c.argv rest (B + o) → o ≤ input.used →
      Asks h input rest c B (Wire.InlineParser.requestLoop n (c.view h) ⟨input.contents h, o⟩)
        (requestLoop input n h c o .null) := by
  induction n with
  | zero =>
    intro h c o hs hh ho
    exact ⟨rfl, .refl hs ho, hh⟩
  | succ n ih =>
    intro h c o hs hh ho
    rw [requestLoop, Wire.InlineParser.requestLoop]
    rcases hx : BufferReader.readUntilAny h input o .null splitSign with ⟨e, h1, buf, o1⟩
    cases e with
    | ok =>
      obtain ⟨line, hW, hw⟩ := read_word (hh.reading hs o) ho hx
      have hprogress := hw.progress
      have hnext := BufferReader.next_le hw.le
      rw [hW]
      dsimp only
      rw [hw.current, hw.last, hw.next]
      -- the word becomes an argument, whole or without its `\r`
      have happend : ∀ arg : Buffer, Sound h1 (arg :: input :: (c.argv ++ rest)) → arg.data = input.data →
          arg.size ≤ input.size → _ := fun arg hs2 hd2 hsize2 =>
        took_argument hw.same hs2 hh (by omega) (by omega) hd2 hsize2 hnext
      by_cases hlf : (⟨input.contents h, o1⟩ : Wire.BufferReader).current = LF
      · rw [if_pos hlf, if_pos hlf]
        by_cases hcr : (⟨input.contents h, o1⟩ : Wire.BufferReader).last = CR
        · obtain ⟨hd2, hsize2, hs2, hc2⟩ := sound_trim hw.sound Nat.one_pos (by norm_num)
          rw [if_pos hcr, if_pos hcr]
          obtain ⟨ht, hh2, _⟩ := happend (buf.offsetBy 0 (-1)) hs2 (hd2.trans hw.data) (Nat.le_trans hsize2 hw.size)
          rw [show (buf.offsetBy 0 (-1)).contents h1 = _ from hc2, hw.contents] at ht
          exact ⟨rfl, ht, hh2.mono (by show _ ≤ B + BufferReader.next input o1; omega)⟩
        · rw [if_neg hcr, if_neg hcr]
          obtain ⟨ht, hh2, _⟩ := happend buf hw.sound hw.data hw.size
          rw [hw.contents] at ht
          exact ⟨rfl, ht, hh2.mono (by show _ ≤ B + BufferReader.next input o1; omega)⟩
      · rw [if_neg hlf, if_neg hlf]
        obtain ⟨ht, hh2, hclear⟩ := happend buf hw.sound hw.data hw.size
        rw [hw.contents] at ht
        rw [hclear, ← ht.contents, ← ht.same.contents List.mem_cons_self]
        exact (ih _ _ _ ht.sound (hh2.mono (by omega)) hnext).after ht
    | notFound =>
      obtain ⟨hW, ht, hh1⟩ := read_noWord hs hh ho Error.noConfusion hx
      rw [hW]
      exact ⟨rfl, ht, hh1⟩
    | _ =>
      obtain ⟨hW, ht, hh1⟩ := read_noWord hs hh ho Error.noConfusion hx
      rw [hW]
      exact ⟨rfl, ht, hh1⟩

end InlineParser

/-! ## Multibulk -/

namespace MultibulkParser

variable {far : Bytes}

/-- An argument whose length is still to be read has its first byte before it. -/
def slack (m : Wire.MultibulkParser) : Nat := if m.bulkLen = 0 then 1 else 0

/-- A line has been read, `pass` bytes at least, and its number taken. -/
structure Skips (h : Heap) (input : Buffer) (live : List Buffer) (o pass : Nat)
    (w : Error × Int × Option Bytes × Wire.BufferReader) (r : Error × Int × Option Buffer × Heap × Nat) : Prop where
  err : r.1 = w.1
  num : r.2.1 = w.2.1
  reader : w.2.2.2 = ⟨input.contents h, r.2.2.2.2⟩
  sound : Sound r.2.2.2.1 (input :: live)
  same : Same h r.2.2.2.1 (input :: live)
  le : r.2.2.2.2 ≤ input.used
  onward : o ≤ r.2.2.2.2
  passed : r.1 = .ok → o + pass ≤ r.2.2.2.2

theorem readInt32_request (hr : Reading h input live .null o) (ho : o ≤ input.used) (far : Bytes) (i : Int) :
    Skips h input live o 1
      (Wire.MultibulkParser.readInt32 (input.behind h far) i ⟨input.contents h, o⟩ none)
      (readInt32 far i h input o none) := by
  have hu := BufferReader.reads_until hr LF
  have hw := hr.within ho
  rw [show Buffer.null.contents h = [] from rfl] at hu
  unfold readInt32 Wire.MultibulkParser.readInt32
  rcases hx : BufferReader.readUntil h input o .null LF 1 with ⟨e, h1, buf, o1⟩
  rcases hW : (⟨input.contents h, o⟩ : Wire.BufferReader).readUntil [] LF 1 with ⟨e', line, r⟩
  rw [hx, hW] at hu
  obtain rfl : e = e' := hu.err
  obtain rfl : r = ⟨input.contents h, o1⟩ := hu.reader
  obtain ⟨hs1, hsame1⟩ := sound_release hu.sound
  have hsame : Same h (buf.destroy h1) (input :: live) := hu.same.trans hsame1
  cases e with
  | ok =>
    obtain ⟨hpos, hoff⟩ := line_read hw hW
    have hoff : o1 = o + line.length := hoff
    have hnum := line_number hw hu hW hu.sound (.refl h1 _) far
    exact ⟨rfl, hnum, rfl, hs1, hsame, hu.le ho, hu.onward, fun _ => by show o + 1 ≤ o1; omega⟩
  | notFound => exact ⟨rfl, rfl, rfl, hs1, hsame, hu.le ho, hu.onward, fun he => (nomatch he)⟩
  | _ => exact ⟨rfl, rfl, rfl, hs1, hsame, hu.le ho, hu.onward, fun he => (nomatch he)⟩

theorem readLen_request (hr : Reading h input live .null o) (ho : o ≤ input.used) (far : Bytes) (i : Int) :
    Skips h input live o (if i = 0 then 1 else 0)
      (Wire.MultibulkParser.readLen (input.behind h far) i ⟨input.contents h, o⟩ none)
      (readLen far i h input o none) := by
  unfold readLen Wire.MultibulkParser.readLen
  by_cases h0 : i = 0
  · rw [if_pos h0, if_pos h0, if_pos h0]
    exact readInt32_request hr ho far i
  · rw [if_neg h0, if_neg h0, if_neg h0]
    exact ⟨rfl, rfl, rfl, sound_drop hr.sound rfl, .refl _ _, ho, Nat.le_refl o, fun _ => Nat.le_refl o⟩

/-- What the loop leaves: `w` is what `Wire` says. -/
structure Asks (h : Heap) (input : Buffer) (rest : List Buffer) (c : Cmd) (B : Nat)
    (w : Error × Wire.MultibulkParser × Wire.Cmd × Wire.BufferReader)
    (r : Error × Wire.MultibulkParser × Heap × Cmd × Nat) : Prop where
  err : r.1 = w.1
  counters : r.2.1 = w.2.1
  took : Took h input rest c w.2.2.1 w.2.2.2 r.2.2.1 r.2.2.2.1 r.2.2.2.2
  held : Held input r.2.2.2.1.argv rest (B + r.2.2.2.2 + slack r.2.1)

theorem Asks.after {d : Wire.Cmd} {q : Wire.BufferReader}
    {w : Error × Wire.MultibulkParser × Wire.Cmd × Wire.BufferReader}
    {r : Error × Wire.MultibulkParser × Heap × Cmd × Nat} (ht : Took h input rest c d q h' c' o')
    (hr : Asks h' input rest c' B w r) : Asks h input rest c B w r :=
  ⟨hr.err, hr.counters, ht.trans hr.took, hr.held⟩

/-- An item has been read: an argument more. -/
theorem read_item (hB : B + input.used < 2 ^ 31) (hs : Sound h (input :: (c.argv ++ rest)))
    (hh : Held input c.argv rest (B + o)) (ho : o ≤ input.used) {n : Nat}
    (hx : BufferReader.read h input o .null n = (.ok, h', buf, o')) :
    ∃ item, (⟨input.contents h, o⟩ : Wire.BufferReader).read [] n = (.ok, item, ⟨input.contents h, o'⟩) ∧
      Took h input rest c (c.view h ++ [Wire.Buffer.trim item 2]) ⟨input.contents h, o'⟩
        ((buf.offsetBy 0 (-2)).destroy (c.appendArg h' (buf.offsetBy 0 (-2))).1)
        (c.appendArg h' (buf.offsetBy 0 (-2))).2 o' ∧
      Held input (c.appendArg h' (buf.offsetBy 0 (-2))).2.argv rest (B + o' + 1) := by
  have hu := BufferReader.reads_read (hh.reading hs o) n
  rw [hx, show Buffer.null.contents h = [] from rfl] at hu
  rcases hW : (⟨input.contents h, o⟩ : Wire.BufferReader).read [] n with ⟨e, item, r⟩
  rw [hW] at hu
  obtain rfl : .ok = e := hu.err
  obtain rfl : r = ⟨input.contents h, o'⟩ := hu.reader
  have hlt := BufferReader.lt_of_read hx
  have hs' : Sound h' (buf :: input :: (c.argv ++ rest)) := hu.sound
  have hbuf : buf.contents h' = item := hu.contents
  have honward : o ≤ o' := hu.onward
  obtain ⟨hd, _, hsize⟩ := hu.slice rfl rfl
  obtain ⟨hd2, hsize2, hs2, hc2⟩ := sound_trim hs' Nat.two_pos (by norm_num)
  obtain ⟨ht, hh', _⟩ := took_argument hu.same hs2 hh (by omega) (by omega) (hd2.trans hd) (Nat.le_trans hsize2 hsize)
    (hu.le ho)
  rw [hc2, hbuf] at ht
  exact ⟨item, rfl, ht, hh'.mono (by omega)⟩

/-- An item is not there yet, or cannot be. -/
theorem read_failed (hs : Sound h (input :: (c.argv ++ rest))) (hh : Held input c.argv rest (B + o))
    (ho : o ≤ input.used) {n : Nat} {e : Error} (hx : BufferReader.read h input o .null n = (e, h', buf, o'))
    (hne : e ≠ .ok) :
    (⟨input.contents h, o⟩ : Wire.BufferReader).read [] n = (e, [], ⟨input.contents h, o'⟩) ∧
      Took h input rest c (c.view h) ⟨input.contents h, o'⟩ (buf.destroy h') c o' ∧
      Held input c.argv rest (B + o') := by
  have hu := BufferReader.reads_read (hh.reading hs o) n
  rw [hx, show Buffer.null.contents h = [] from rfl] at hu
  obtain rfl : buf = .null := hu.failed hne
  have hs' : Sound h' (input :: (c.argv ++ rest)) := sound_drop hu.sound rfl
  exact ⟨Prod.ext hu.err.symm (Prod.ext hu.contents.symm hu.reader), took_nothing hu.same hs' (hu.le ho),
    hh.mono (Nat.add_le_add_left hu.onward _)⟩

theorem requestLoop_view (hB : B + input.used < 2 ^ 31) (far : Bytes) (n : Nat) :
    ∀ (m : Wire.MultibulkParser) (h : Heap) (c : Cmd) (o : Nat),
    Sound h (input :: (c.argv ++ rest)) → Held input c.argv rest (B + o + slack m) → o ≤ input.used →
      Asks h input rest c B
        (Wire.MultibulkParser.requestLoop (input.behind h far) n m (c.view h) ⟨input.contents h, o⟩)
        (requestLoop far input n m h c o) := by
  induction n with
  | zero =>
    intro m h c o hs hh ho
    exact ⟨rfl, rfl, .refl hs ho, hh⟩
  | succ n ih =>
    intro m h c o hs hh ho
    have hl := readLen_request (hh.reading hs o) ho far m.bulkLen
    rw [requestLoop, Wire.MultibulkParser.requestLoop]
    rcases hx : readLen far m.bulkLen h input o none with ⟨e, len, pb, h1, o1⟩
    rcases hW : Wire.MultibulkParser.readLen (input.behind h far) m.bulkLen ⟨input.contents h, o⟩ none
      with ⟨e', len', pb', r⟩
    rw [hx, hW] at hl
    obtain rfl : e = e' := hl.err
    obtain rfl : len = len' := hl.num
    obtain rfl : r = ⟨input.contents h, o1⟩ := hl.reader
    have hs1 : Sound h1 (input :: (c.argv ++ rest)) := hl.sound
    have hsame1 : Same h h1 (input :: (c.argv ++ rest)) := hl.same
    have ho1 : o1 ≤ input.used := hl.le
    have ht1 : Took h input rest c (c.view h) ⟨input.contents h, o1⟩ h1 c o1 := took_nothing hsame1 hs1 ho1
    have hc1 := hsame1.contents (List.mem_cons_self (a := input))
    cases e with
    | ok =>
      have hpass : o + slack m ≤ o1 := hl.passed rfl
      have hh1 : Held input c.argv rest (B + o1) := hh.mono (by omega)
      dsimp only
      rcases hread : BufferReader.read h1 input o1 .null (readSize len) with ⟨e2, h2, buf, o2⟩
      cases e2 with
      | ok =>
        obtain ⟨item, hW2, ht2, hh2⟩ := read_item hB hs1 hh1 ho1 hread
        rw [← hc1, hW2]
        dsimp only
        have hloop := ih { m with multibulkIndex := m.multibulkIndex + 1, bulkLen := 0 } _ _ o2 ht2.sound hh2 ht2.le
        rw [ht2.contents, ht2.same.contents List.mem_cons_self, ht2.same.behind List.mem_cons_self far,
          hsame1.behind List.mem_cons_self far, ht1.contents] at hloop
        exact (hloop.after ht2).after ht1
      | outOfBound =>
        obtain ⟨hW2, ht2, hh2⟩ := read_failed hs1 hh1 ho1 hread Error.noConfusion
        rw [← hc1, hW2]
        exact ⟨rfl, rfl, ht1.contents ▸ ht1.trans ht2, hh2.mono (Nat.le_add_right _ _)⟩
      | _ =>
        obtain ⟨hW2, ht2, hh2⟩ := read_failed hs1 hh1 ho1 hread Error.noConfusion
        rw [← hc1, hW2]
        exact ⟨rfl, rfl, ht1.contents ▸ ht1.trans ht2, hh2.mono (Nat.le_add_right _ _)⟩
    | _ =>
      have hfailed := Wire.MultibulkParser.readLen_failed (input.behind h far) m.bulkLen none
        (show (Wire.MultibulkParser.readLen _ _ ⟨input.contents h, o⟩ none).1 ≠ .ok by
          rw [hW]; exact Error.noConfusion)
      rw [hW] at hfailed
      obtain ⟨h0, hlen⟩ := hfailed
      obtain rfl : len = 0 := hlen
      have honward : o ≤ o1 := hl.onward
      refine ⟨rfl, rfl, ht1, hh.mono ?_⟩
      show B + o + slack m ≤ B + o1 + 1
      unfold slack
      rw [if_pos h0]
      omega

theorem handleRequest_view (hB : B + input.used < 2 ^ 31) (far : Bytes) (m : Wire.MultibulkParser)
    (hs : Sound h (input :: (c.argv ++ rest)))
    (hh : Held input c.argv rest (B + o + slack m)) (ho : o ≤ input.used) :
    Asks h input rest c B
      (Wire.MultibulkParser.handleRequest (input.behind h far) m (c.view h) ⟨input.contents h, o⟩)
      (handleRequest far m h input o c) := by
  have hl := readLen_request (hh.reading hs o) ho far m.multibulkLen
  unfold handleRequest Wire.MultibulkParser.handleRequest
  rcases hx : readLen far m.multibulkLen h input o none with ⟨e, len, pb, h1, o1⟩
  rcases hW : Wire.MultibulkParser.readLen (input.behind h far) m.multibulkLen ⟨input.contents h, o⟩ none
    with ⟨e', len', pb', r⟩
  rw [hx, hW] at hl
  obtain rfl : e = e' := hl.err
  obtain rfl : len = len' := hl.num
  obtain rfl : r = ⟨input.contents h, o1⟩ := hl.reader
  have hs1 : Sound h1 (input :: (c.argv ++ rest)) := hl.sound
  have hsame1 : Same h h1 (input :: (c.argv ++ rest)) := hl.same
  have ho1 : o1 ≤ input.used := hl.le
  have ht1 : Took h input rest c (c.view h) ⟨input.contents h, o1⟩ h1 c o1 := took_nothing hsame1 hs1 ho1
  have honward : o ≤ o1 := hl.onward
  have hh1 : Held input c.argv rest (B + o1 + slack { m with multibulkLen := len }) :=
    hh.mono (Nat.add_le_add_right (Nat.add_le_add_left honward _) _)
  cases e with
  | ok =>
    have hloop := requestLoop_view hB far (len - m.multibulkIndex).toNat { m with multibulkLen := len } h1 c o1
      hs1 hh1 ho1
    rw [ht1.contents, hsame1.contents List.mem_cons_self, hsame1.behind List.mem_cons_self far] at hloop
    exact hloop.after ht1
  | _ => exact ⟨rfl, rfl, ht1, hh1⟩

end MultibulkParser

/-! ## Calls -/

namespace CmdParser

variable {P : CmdParser}

def slack (P : CmdParser) : Nat := if P.parseType = .multibulk then MultibulkParser.slack P.multibulkParser else 0

/-- Between two calls. -/
structure Asking (h : Heap) (P : CmdParser) (c : Cmd) (rest : List Buffer) : Prop where
  sound : Sound h (P.inputb :: (c.argv ++ rest))
  /-- A byte that is unread brings one argument more at most. -/
  held : ∃ B, B + P.inputb.used < 2 ^ 31 ∧ Held P.inputb c.argv rest (B + P.slack)
  inputbr : P.inputbr = 0
  idle : P.parseType = .none → c.argv = []

/-- What a call leaves: `w` is what `Wire` says. -/
structure Asked (h : Heap) (P : CmdParser) (c : Cmd) (rest : List Buffer) (w : Error × Wire.CmdParser × Wire.Cmd)
    (r : Error × Heap × CmdParser × Cmd) : Prop where
  err : r.1 = w.1
  view : r.2.2.1.view r.2.1 = w.2.1
  contents : r.2.2.2.view r.2.1 = w.2.2
  asking : r.2.2.1.Asking r.2.1 r.2.2.2 rest
  same : Same h r.2.1 (P.inputb :: (c.argv ++ rest))
  grows : c.argv <+: r.2.2.2.argv

/-- The end of a call, in either mode. -/
theorem asked_handOver (hB : B + input.used < 2 ^ 31) {mode type : ParseType} {m0 m : Wire.MultibulkParser}
    {e : Error} {d : Wire.Cmd}
    (ht : Took h input rest c d ⟨input.contents h, o⟩ h' c' o) (hn : type ≠ .none)
    (hh : Held input c'.argv rest (B + o + (⟨type, m, input, 0⟩ : CmdParser).slack)) :
    Asked h ⟨mode, m0, input, 0⟩ c rest
      (e, (⟨type, m, input.contents h, 0⟩ : Wire.CmdParser).handOver ⟨input.contents h, o⟩, d)
      (e, h', (⟨type, m, input, 0⟩ : CmdParser).handOver o, c') := by
  have hle := ht.le
  obtain ⟨hview, hs, hP⟩ := handOver_view ht.sound ht.le hh.lt type m
  rw [hP] at hview hs ⊢
  rw [ht.same.contents List.mem_cons_self] at hview
  have hused : (⟨input.data, input.size, input.offset + o⟩ : Buffer).used = input.used - o := by
    show input.size - (input.offset + o) = input.size - input.offset - o
    omega
  refine ⟨rfl, hview, ht.contents, ⟨hs, ⟨B + o, ?_, hh.advance rfl (Nat.le_refl _) ?_⟩, rfl,
    fun hnone => absurd hnone hn⟩, ht.same, ht.grows⟩
  · show B + o + (⟨input.data, input.size, input.offset + o⟩ : Buffer).used < 2 ^ 31
    omega
  · show (⟨input.data, input.size, input.offset + o⟩ : Buffer).used < 2 ^ 31
    omega

theorem parseRequest_view (ha : P.Asking h c rest) (far : Bytes) :
    Asked h P c rest ((P.view h).parseRequest (P.inputb.behind h far) (c.view h)) (parseRequest far h P c) := by
  obtain ⟨hs, ⟨B, hB, hh⟩, h0, hidle⟩ := ha
  obtain ⟨mode, m, input, br⟩ := P
  obtain rfl : br = 0 := h0
  have hs : Sound h (input :: (c.argv ++ rest)) := hs
  have hlen := length_contents hs
  show Asked h _ c rest ((⟨mode, m, input.contents h, 0⟩ : Wire.CmdParser).parseRequest _ _) _
  simp only [parseRequest, Wire.CmdParser.parseRequest, ← BufferReader.eof_view hs, BufferReader.current_view hs]
  by_cases hend : BufferReader.eof input 0 = true
  · rw [if_pos hend, if_pos hend]
    exact ⟨rfl, rfl, rfl, ⟨hs, ⟨B, hB, hh⟩, rfl, hidle⟩, .refl _ _, List.prefix_refl _⟩
  rw [if_neg hend, if_neg hend]
  -- a mode chosen now finds no argument
  have hheld : ∀ type, (mode ≠ .none → type = mode) →
      Held input c.argv rest (B + 0 + (⟨type, m, input, 0⟩ : CmdParser).slack) := by
    intro type htype
    by_cases hmode : mode = .none
    · rw [show c.argv = [] from hidle hmode] at hh ⊢
      exact held_nil hh.own hh.lt _
    · rw [htype hmode]
      exact hh
  generalize htype : (if mode = .none then
    (if BufferReader.current h input 0 = 42 then ParseType.multibulk else .inline) else mode) = type
  have hmode : mode ≠ .none → type = mode := fun hne => by rw [← htype, if_neg hne]
  have hn : type ≠ .none := by
    rw [← htype]
    by_cases hnone : mode = .none
    · rw [if_pos hnone]
      split <;> exact ParseType.noConfusion
    · rwa [if_neg hnone]
  have hh := hheld type hmode
  by_cases hmulti : type = .multibulk
  · subst hmulti
    rw [if_pos rfl, if_pos rfl]
    have hask := MultibulkParser.handleRequest_view hB far m hs hh (Nat.zero_le _)
    rcases hx : MultibulkParser.handleRequest far m h input 0 c with ⟨e, m1, h1, c1, o1⟩
    rcases hW : Wire.MultibulkParser.handleRequest (input.behind h far) m (c.view h) ⟨input.contents h, 0⟩
      with ⟨e', m', d, r⟩
    rw [hx, hW] at hask
    obtain rfl : e = e' := hask.err
    obtain rfl : m1 = m' := hask.counters
    obtain rfl : r = ⟨input.contents h, o1⟩ := hask.took.reader
    exact asked_handOver hB hask.took hn hask.held
  · rw [if_neg hmulti, if_neg hmulti]
    have hslack : ∀ m' : Wire.MultibulkParser, (⟨type, m', input, 0⟩ : CmdParser).slack = 0 := fun _ => if_neg hmulti
    rw [hslack] at hh
    have hask := InlineParser.requestLoop_view hB (input.used + 1) h c 0 hs hh (Nat.zero_le _)
    unfold InlineParser.handleRequest Wire.InlineParser.handleRequest
    rw [show (⟨input.contents h, 0⟩ : Wire.BufferReader).buffer.length = input.used from hlen]
    rcases hx : InlineParser.requestLoop input (input.used + 1) h c 0 .null with ⟨e, h1, c1, o1⟩
    rcases hW : Wire.InlineParser.requestLoop (input.used + 1) (c.view h) ⟨input.contents h, 0⟩ with ⟨e', d, r⟩
    rw [hx, hW] at hask
    obtain rfl : e = e' := hask.err
    obtain rfl : r = ⟨input.contents h, o1⟩ := hask.took.reader
    exact asked_handOver hB hask.took hn (by rw [hslack]; exact hask.held)

end CmdParser

/-! ## A run -/

structure Requests where
  heap : Heap
  parser : CmdParser
  cmd : Cmd

inductive RequestEvent where
  /-- Bytes read to the input's tail, `AppendSize` after them. -/
  | receive (l : Bytes)
  | appendCapacity (n : Nat)
  /-- `ParseRequest`; `far` is what lies behind the input's block. -/
  | parseRequest (far : Bytes)
  /-- `Reset` of the command alone: it waited for its upstream, and has been pushed. -/
  | resetCmd
  /-- `Reset` of the parser and of the command. -/
  | reset
  deriving DecidableEq, Repr

def RequestEvent.resets : RequestEvent → Bool
  | .resetCmd => true
  | .reset => true
  | _ => false

namespace Requests

def start (h : Heap) : Requests := ⟨h, .init, .empty⟩

def step (s : Requests) : RequestEvent → Requests
  | .receive l =>
    let h := s.parser.inputb.writeTail s.heap l
    { s with heap := h, parser := { s.parser with inputb := (s.parser.inputb.appendSize h l.length).2 } }
  | .appendCapacity n =>
    match s.parser.inputb.appendCapacity s.heap n with
    | (_, h, b) => { s with heap := h, parser := { s.parser with inputb := b } }
  | .parseRequest far =>
    match s.parser.parseRequest far s.heap s.cmd with
    | (_, h, p, c) => ⟨h, p, c⟩
  | .resetCmd => { s with heap := (s.cmd.reset s.heap).1, cmd := (s.cmd.reset s.heap).2 }
  | .reset => ⟨(s.cmd.reset s.heap).1, s.parser.reset, (s.cmd.reset s.heap).2⟩

/-- The arguments that look at the input's block. -/
def shared (s : Requests) : Nat := s.cmd.argv.countP fun arg => arg.data == s.parser.inputb.data

/-- The bytes fit where they are read to, fewer than 2^31 are unread, an argument that looks at
    their block counted as one of them, and a block can be as large as it is asked for. -/
def Fits (s : Requests) : RequestEvent → Prop
  | .receive l => s.parser.inputb.size + l.length ≤ s.parser.inputb.capacity s.heap ∧
      s.shared + s.parser.inputb.used + l.length < 2 ^ 31
  | .appendCapacity n => s.parser.inputb.Affords n
  | _ => True

instance (s : Requests) : (e : RequestEvent) → Decidable (s.Fits e)
  | .receive _ => inferInstanceAs (Decidable (_ ∧ _))
  | .appendCapacity _ => inferInstanceAs (Decidable (_ < _))
  | .parseRequest _ => inferInstanceAs (Decidable True)
  | .resetCmd => inferInstanceAs (Decidable True)
  | .reset => inferInstanceAs (Decidable True)

variable {s s' s'' : Requests} {n : Nat}

/-- The arguments there are stay, and what they hold. -/
structure Stays (s s' : Requests) : Prop where
  grows : s.cmd.argv <+: s'.cmd.argv
  contents : ∀ arg ∈ s.cmd.argv, arg.contents s'.heap = arg.contents s.heap

theorem Stays.refl (s : Requests) : Stays s s := ⟨List.prefix_refl _, fun _ _ => rfl⟩

theorem Stays.trans (h1 : Stays s s') (h2 : Stays s' s'') : Stays s s'' :=
  ⟨h1.grows.trans h2.grows, fun arg ha => (h2.contents arg (h1.grows.subset ha)).trans (h1.contents arg ha)⟩

def Kept (rest : List Buffer) (s : Requests) : Prop := s.parser.Asking s.heap s.cmd rest

theorem kept_start (hs : Sound h rest) : Kept rest (start h) := by
  have hown : Own .null rest := fun _ ha => (nomatch ha)
  have hlt : Buffer.null.used < 2 ^ 31 := Nat.two_pow_pos 31
  exact ⟨sound_null hs, ⟨0, Nat.two_pow_pos 31, held_nil hown hlt _⟩, rfl, fun _ => rfl⟩

theorem shared_eq {a : Nat} (ha : s.parser.inputb.data = some a) : s.shared = owners s.cmd.argv a := by
  unfold shared owners
  rw [ha]

/-- Bytes come behind every argument. -/
theorem step_receive (hk : Kept rest s) {l : Bytes} (hf : s.Fits (.receive l)) :
    Kept rest (s.step (.receive l)) ∧ Stays s (s.step (.receive l)) := by
  obtain ⟨hs, ⟨B, _, hh⟩, h0, hidle⟩ := hk
  obtain ⟨hfree, hlt⟩ := hf
  obtain ⟨_, hrec⟩ := sound_receive hs hfree
  have hinput : (s.step (.receive l)).parser.inputb =
      { s.parser.inputb with size := s.parser.inputb.size + l.length } := hrec.place
  have hle := (hs.shaped s.parser.inputb List.mem_cons_self).offset_le
  have hused : (s.step (.receive l)).parser.inputb.used = s.parser.inputb.used + l.length := by
    rw [hinput]
    show s.parser.inputb.size + l.length - s.parser.inputb.offset =
      s.parser.inputb.size - s.parser.inputb.offset + l.length
    omega
  have hcount : Held s.parser.inputb s.cmd.argv rest (s.shared + s.parser.slack) :=
    ⟨hh.own, hh.lt, hh.apart, hh.few, fun a ha => by rw [shared_eq ha]; exact Nat.le_add_right _ _, hh.below⟩
  refine ⟨⟨hrec.sound, ⟨s.shared, ?_, ?_⟩, h0, hidle⟩, List.prefix_refl _, fun arg ha => ?_⟩
  · rw [hused]
    omega
  · refine hcount.advance (by rw [hinput]) (by rw [hinput]; exact Nat.le_add_right _ _) ?_
    rw [hused]
    omega
  · exact hrec.below arg (List.mem_append_left rest ha) (hh.below arg ha)

/-- A block that an argument looks at is left, or not touched. -/
theorem step_grow (hk : Kept rest s) (hf : s.Fits (.appendCapacity n)) :
    Kept rest (s.step (.appendCapacity n)) ∧ Stays s (s.step (.appendCapacity n)) := by
  obtain ⟨hs, ⟨B, hB, hh⟩, h0, hidle⟩ := hk
  obtain ⟨h', b, he, hg⟩ := sound_grow hs hf
  have hstep : s.step (.appendCapacity n) = { s with heap := h', parser := { s.parser with inputb := b } } := by
    simp only [step, he]
  rw [hstep]
  refine ⟨⟨hg.sound, ⟨B, by show B + b.used < 2 ^ 31; rw [hg.used]; exact hB, ?_⟩, h0, hidle⟩,
    List.prefix_refl _, fun arg ha => hg.same.contents (List.mem_append_left rest ha)⟩
  rcases hg.alone with rfl | halone
  · exact hh
  have hnone : ∀ a, b.data = some a → owners s.cmd.argv a = 0 ∧ owners rest a = 0 := by
    intro a ha
    have hno := halone a ha
    rw [owners_append] at hno
    omega
  refine ⟨fun a ha => (hnone a ha).2, by show b.used < 2 ^ 31; rw [hg.used]; exact hh.lt, hh.apart, hh.few,
    fun a ha => by rw [(hnone a ha).1]; exact Nat.zero_le _, fun x hx hxd => ?_⟩
  cases hbd : b.data with
  | none =>
    have hle := (hg.sound.shaped x (List.mem_cons_of_mem _ (List.mem_append_left rest hx))).size_le
    rw [Buffer.capacity, hxd, hbd] at hle
    exact Nat.le_trans hle (Nat.zero_le _)
  | some a =>
    have hpos := owners_pos hx (hxd.trans hbd)
    rw [(hnone a hbd).1] at hpos
    exact absurd hpos (Nat.lt_irrefl 0)

theorem step_parse (hk : Kept rest s) (far : Bytes) :
    Kept rest (s.step (.parseRequest far)) ∧ Stays s (s.step (.parseRequest far)) := by
  have hp := CmdParser.parseRequest_view hk far
  exact ⟨hp.asking, hp.grows, fun arg ha => hp.same.tail.contents (List.mem_append_left rest ha)⟩

/-- The command's references are dropped, and no others. -/
theorem reset_kept (hk : Kept rest s) :
    Kept rest (s.step .resetCmd) ∧ Kept rest (s.step .reset) := by
  obtain ⟨hs, ⟨B, hB, hh⟩, h0, _⟩ := hk
  have hmid : (s.parser.inputb :: (s.cmd.argv ++ rest)).Perm (s.cmd.argv ++ s.parser.inputb :: rest) :=
    List.perm_middle.symm
  obtain ⟨hs', _⟩ := sound_releases s.cmd.argv s.heap (sound_perm hmid hs)
  exact ⟨⟨hs', ⟨B, hB, held_nil hh.own hh.lt _⟩, h0, fun _ => rfl⟩,
    ⟨hs', ⟨B, hB, held_nil hh.own hh.lt _⟩, h0, fun _ => rfl⟩⟩

theorem step_kept (hk : Kept rest s) (e : RequestEvent) (hf : s.Fits e) :
    Kept rest (s.step e) ∧ (e.resets = false → Stays s (s.step e)) := by
  cases e with
  | receive l => exact (step_receive hk hf).imp_right fun hst _ => hst
  | appendCapacity n => exact (step_grow hk hf).imp_right fun hst _ => hst
  | parseRequest far => exact (step_parse hk far).imp_right fun hst _ => hst
  | resetCmd => exact ⟨(reset_kept hk).1, fun hr => (nomatch hr)⟩
  | reset => exact ⟨(reset_kept hk).2, fun hr => (nomatch hr)⟩

theorem run_kept (events : List RequestEvent) (hs : Sound h rest) (hf : Each step Fits (start h) events) :
    Kept rest (events.foldl step (start h)) :=
  each_run (I := Kept rest) (fun _ e hk hfits => (step_kept hk e hfits).1) events (start h) (kept_start hs) hf

theorem run_stays (events : List RequestEvent) : ∀ s, Kept rest s → Each step Fits s events →
    (∀ e ∈ events, e.resets = false) → Stays s (events.foldl step s) := by
  induction events with
  | nil => intro s _ _ _; exact .refl s
  | cons e events ih =>
    intro s hk hf hr
    obtain ⟨hk', hst⟩ := step_kept hk e hf.1
    exact (hst (hr e List.mem_cons_self)).trans
      (ih _ hk' hf.2 fun e' he' => hr e' (List.mem_cons_of_mem _ he'))

/-- Whatever is received, grown and parsed: an argument holds what it held until the command
    is reset. -/
theorem arguments_stable (hs : Sound h rest) (events later : List RequestEvent)
    (hf : Each step Fits (start h) (events ++ later)) (hr : ∀ e ∈ later, e.resets = false) :
    let s := events.foldl step (start h)
    let s' := later.foldl step s
    s.cmd.argv <+: s'.cmd.argv ∧ ∀ arg ∈ s.cmd.argv, arg.contents s'.heap = arg.contents s.heap := by
  obtain ⟨hf, hl⟩ := (each_append events later _).mp hf
  have hst := run_stays later _ (run_kept events hs hf) hl hr
  exact ⟨hst.grows, hst.contents⟩

/-- `a` is an argument, the next one is cut; the input moves to another block. -/
theorem arguments_stable_cut :
    let s := [RequestEvent.appendCapacity 8, .receive [97, 32, 98], .parseRequest []].foldl step
      (start (.start fun _ => some fun _ => 0))
    let s' := [RequestEvent.receive [99, 13, 10], .parseRequest [], .appendCapacity 16].foldl step s
    s.cmd.argv <+: s'.cmd.argv ∧ ∀ arg ∈ s.cmd.argv, arg.contents s'.heap = arg.contents s.heap :=
  have hs : Sound (.start fun _ => some fun _ => 0) [] := sound_start fun _ => Option.some_ne_none _
  arguments_stable hs _ _ ⟨by decide, by decide, trivial, by decide, trivial, by decide, trivial⟩ (by decide)

end Requests

end RedisProxy.Mem
