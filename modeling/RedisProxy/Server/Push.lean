/-
  RedisProxy.Server.Push — `PushRequest` when memory runs out (upstream.cpp, cmd.cpp).

  `PushRequest` takes its slot of the queue first. What comes after may fail: a temporary
  buffer of 4096 bytes, `FormatRESP2` into it, the append to the send buffer. None of these
  gives the slot back: the entry stays for a command that was never sent.

  Proved: `pushed_iff`, a push leaves either an entry and its command or nothing, if and
  only if it is refused before it takes the slot or gets every allocation it asks for.
-/

import RedisProxy.Mem.Parser
import RedisProxy.Mem.Scarce
import RedisProxy.Net.Output
import RedisProxy.Server.Upstream
import RedisProxy.Wire.Request

namespace RedisProxy.Mem

open Lib.Decimal Wire

/-! ## FormatRESP2 -/

namespace Cmd

/-- An argument's turn in the loop. -/
def formatArg (h : Heap) (buffer arg : Buffer) : Error × Heap × Buffer :=
  match buffer.appendBytes h (36 :: decimal arg.used ++ [CR, LF]) with
  | (.ok, h, buffer) =>
    match buffer.appendBytes h (arg.contents h) with
    | (.ok, h, buffer) => buffer.appendBytes h [CR, LF]
    | r => r
  | r => r

def formatArgs (h : Heap) (buffer : Buffer) : List Buffer → Error × Heap × Buffer
  | [] => (.ok, h, buffer)
  | arg :: argv =>
    match formatArg h buffer arg with
    | (.ok, h, buffer) => formatArgs h buffer argv
    | r => r

def formatRESP2 (h : Heap) (c : Cmd) (buffer : Buffer) : Error × Heap × Buffer :=
  match buffer.appendBytes h (42 :: decimal c.argv.length ++ [CR, LF]) with
  | (.ok, h, buffer) => formatArgs h buffer c.argv
  | r => r

/-- What is appended for an argument. -/
def argPieces (h : Heap) (arg : Buffer) : List Bytes :=
  [36 :: decimal arg.used ++ [CR, LF], arg.contents h, [CR, LF]]

/-- What is appended, piece by piece. -/
def pieces (h : Heap) (c : Cmd) : List Bytes :=
  (42 :: decimal c.argv.length ++ [CR, LF]) :: c.argv.flatMap (argPieces h)

variable {h h' : Heap} {rest : List Buffer} {b arg : Buffer} {c : Cmd}

theorem decimal_length {n : Nat} (hn : n < 2 ^ 64) : (decimal n).length ≤ 20 := by
  unfold decimal
  rw [List.length_map, Nat.length_toDigits_le_iff (by decide) (by decide)]
  omega

/-- A number's line. -/
theorem mark_length {n : Nat} (hn : n < 2 ^ 64) (mark : Byte) : (mark :: decimal n ++ [CR, LF]).length < 2 ^ 32 := by
  have hle := decimal_length hn
  rw [List.cons_append, List.length_cons, List.length_append]
  show (decimal n).length + 2 + 1 < 2 ^ 32
  omega

theorem arg_length (hf : Firm h rest) (hm : arg ∈ rest) : (arg.contents h).length = arg.used ∧ arg.used < 2 ^ 32 := by
  have hfront := firm_front hf hm
  have hcap := firm_capacity hfront
  have hsize := (hf.shaped arg hm).size_le
  have hused : arg.used = arg.size - arg.offset := rfl
  exact ⟨firm_contents hfront, by omega⟩

theorem argPieces_short (hf : Firm h rest) (hm : arg ∈ rest) : ∀ l ∈ argPieces h arg, l.length < 2 ^ 32 := by
  obtain ⟨hlen, hlt⟩ := arg_length hf hm
  intro l hl
  rcases List.mem_cons.mp hl with rfl | hl
  · exact mark_length (by omega) 36
  · rcases List.mem_cons.mp hl with rfl | hl
    · rwa [hlen]
    · rw [List.mem_singleton.mp hl]
      decide

/-- Nobody touches the arguments meanwhile. -/
theorem argPieces_same {argv : List Buffer} (hs : Same h h' rest) (hm : ∀ arg ∈ argv, arg ∈ rest) :
    argv.flatMap (argPieces h') = argv.flatMap (argPieces h) := by
  refine List.flatMap_congr fun arg harg => ?_
  unfold argPieces
  rw [hs.contents (hm arg harg)]

theorem formatArg_pieces (hf : Firm h (b :: rest)) (hown : Own b rest) (hm : arg ∈ rest) :
    formatArg h b arg = b.appendAll h (argPieces h arg) := by
  have hused := (arg_length hf (List.mem_cons_of_mem b hm)).2
  unfold formatArg argPieces Buffer.appendAll
  rcases he : b.appendBytes h (36 :: decimal arg.used ++ [CR, LF]) with ⟨e, h1, b1⟩
  cases e with
  | ok =>
    have ha := appended_of_ok hf hown (mark_length (by omega) 36) he
    dsimp only
    rw [ha.same.contents hm, Buffer.appendAll]
    rcases b1.appendBytes h1 (arg.contents h) with ⟨e, h2, b2⟩
    cases e with
    | ok =>
      dsimp only
      rw [Buffer.appendAll]
      rcases b2.appendBytes h2 [CR, LF] with ⟨e, h3, b3⟩
      cases e <;> rfl
    | _ => rfl
  | _ => rfl

theorem formatArgs_pieces (argv : List Buffer) : ∀ (h : Heap) (b : Buffer), Firm h (b :: rest) → Own b rest →
    (∀ arg ∈ argv, arg ∈ rest) → formatArgs h b argv = b.appendAll h (argv.flatMap (argPieces h)) := by
  induction argv with
  | nil => intro h b _ _ _; rfl
  | cons arg argv ih =>
    intro h b hf hown hm
    have harg := hm arg List.mem_cons_self
    rw [formatArgs, formatArg_pieces hf hown harg, List.flatMap_cons, appendAll_append]
    rcases he : b.appendAll h (argPieces h arg) with ⟨e, h1, b1⟩
    cases e with
    | ok =>
      have hfill := filled_of_ok hf hown (argPieces_short hf (List.mem_cons_of_mem b harg)) he
      have hrest : ∀ x ∈ argv, x ∈ rest := fun x hx => hm x (List.mem_cons_of_mem arg hx)
      dsimp only
      rw [ih h1 b1 hfill.firm hfill.own hrest, argPieces_same hfill.same hrest]
    | _ => rfl

theorem pieces_short (hf : Firm h rest) (hm : ∀ arg ∈ c.argv, arg ∈ rest) (hn : c.argv.length < 2 ^ 64) :
    ∀ l ∈ c.pieces h, l.length < 2 ^ 32 := by
  intro l hl
  rcases List.mem_cons.mp hl with rfl | hl
  · exact mark_length hn 42
  · obtain ⟨arg, harg, hl⟩ := List.mem_flatMap.mp hl
    exact argPieces_short hf (hm arg harg) l hl

theorem formatRESP2_pieces (hf : Firm h (b :: rest)) (hown : Own b rest) (hm : ∀ arg ∈ c.argv, arg ∈ rest)
    (hn : c.argv.length < 2 ^ 64) : c.formatRESP2 h b = b.appendAll h (c.pieces h) := by
  unfold formatRESP2 pieces Buffer.appendAll
  rcases he : b.appendBytes h (42 :: decimal c.argv.length ++ [CR, LF]) with ⟨e, h1, b1⟩
  cases e with
  | ok =>
    have ha := appended_of_ok hf hown (mark_length hn 42) he
    dsimp only
    rw [formatArgs_pieces c.argv h1 b1 ha.firm ha.own hm, argPieces_same ha.same hm]
  | _ => rfl

/-- Together they are the command's encoding. -/
theorem pieces_flatten (hf : Firm h rest) (hm : ∀ arg ∈ c.argv, arg ∈ rest) :
    (c.pieces h).flatten = encode (c.view h) := by
  have hargs : ∀ argv : List Buffer, (∀ arg ∈ argv, arg ∈ rest) →
      (argv.flatMap (argPieces h)).flatten = (argv.map (Buffer.contents h)).flatMap encodeArg := by
    intro argv
    induction argv with
    | nil => intro _; rfl
    | cons arg argv ih =>
      intro hm
      have hlen := (arg_length hf (hm arg List.mem_cons_self)).1
      rw [List.flatMap_cons, List.flatten_append, ih fun x hx => hm x (List.mem_cons_of_mem arg hx)]
      simp [argPieces, encodeArg, header, numLine, crlf, decimalInt_natCast, hlen]
  unfold pieces encode view
  rw [List.flatten_cons, hargs c.argv hm]
  simp [countLine, numLine, crlf, decimalInt_natCast]

end Cmd

end RedisProxy.Mem

namespace RedisProxy.Server

open Lib.Decimal Wire Mem Net

/-! ## PushRequest -/

/-- An upstream's queue and its connection, over the heap. -/
structure Sender (R : Type) where
  serverConn : Output
  cmdQueue : Recycle (ReaderPair R)

namespace Sender

variable {R : Type} (identity : R → Nat)

def pushRequest (u : Sender R) (cmd : Mem.Cmd) (reader : R) : Error × Sender R :=
  if u.serverConn.connected = false then (.tryAgain, u)
  else
    match u.cmdQueue.push ⟨identity reader, some reader⟩ with
    | .error .full => (.tryAgain, u)
    | .error e => (e, u)
    | .ok q =>
      -- from here on every return leaves the entry
      match Mem.Buffer.null.appendCapacity u.serverConn.heap (4 * 1024) with
      | (.ok, h, buffer) =>
        match cmd.formatRESP2 h buffer with
        | (.ok, h, buffer) =>
          match { u.serverConn with heap := h }.writeToBuffer (buffer.contents h) false with
          | (e, o) => (e, ⟨{ o with heap := buffer.destroy o.heap }, q⟩)
        | (e, h, buffer) => (e, ⟨{ u.serverConn with heap := buffer.destroy h }, q⟩)
      | (e, h, buffer) => (e, ⟨{ u.serverConn with heap := buffer.destroy h }, q⟩)

/-- What is in the send buffer. -/
def pending (u : Sender R) : Bytes := u.serverConn.sendBuffer.contents u.serverConn.heap

def encoding (u : Sender R) (cmd : Mem.Cmd) : Bytes := (cmd.view u.serverConn.heap).formatRESP2 []

/-- All of it on `OK`, nothing on anything else. -/
def Atomic (u : Sender R) (cmd : Mem.Cmd) (reader : R) : Prop :=
  let r := u.pushRequest identity cmd reader
  if r.1 = .ok then
    r.2.cmdQueue.held = u.cmdQueue.held ++ [⟨identity reader, some reader⟩] ∧ r.2.pending = u.pending ++ u.encoding cmd
  else r.2.cmdQueue = u.cmdQueue ∧ r.2.pending = u.pending

/-- Refused before the slot is taken. -/
def Refused (u : Sender R) : Prop :=
  u.serverConn.connected = false ∨ u.cmdQueue.held.length + 1 = u.cmdQueue.holder.length

/-- The allocations a push asks for: 4096 bytes, what the command has beyond them, and a block for
    the send buffer where its own is too small for what is pending and the command. -/
def allocations (u : Sender R) (cmd : Mem.Cmd) : Nat :=
  1 + growths (4 * 1024) 0 (cmd.pieces u.serverConn.heap) +
    if u.serverConn.sendBuffer.capacity u.serverConn.heap < u.serverConn.sendBuffer.used + (u.encoding cmd).length
    then 1 else 0

/-- It gets them, and a `uint32_t` holds what is then pending. -/
def Granted (u : Sender R) (cmd : Mem.Cmd) : Prop :=
  u.serverConn.heap.Grants (u.allocations cmd) ∧ u.serverConn.sendBuffer.used + (u.encoding cmd).length < 2 ^ 32

/-- The send buffer has a block of its own or none, the arguments lie in theirs; `rest` are all
    the other buffers. -/
structure Ready (rest : List Mem.Buffer) (u : Sender R) (cmd : Mem.Cmd) : Prop where
  firm : Firm u.serverConn.heap (u.serverConn.sendBuffer :: rest)
  own : Own u.serverConn.sendBuffer rest
  args : ∀ arg ∈ cmd.argv, arg ∈ rest
  count : cmd.argv.length < 2 ^ 64

variable {identity} {rest : List Mem.Buffer} {u : Sender R} {cmd : Mem.Cmd} {reader : R}

theorem refused_keeps (hr : u.Refused) : u.pushRequest identity cmd reader = (.tryAgain, u) := by
  unfold pushRequest
  by_cases hc : u.serverConn.connected = false
  · rw [if_pos hc]
  · rw [if_neg hc]
    rcases u.cmdQueue.push_held ⟨identity reader, some reader⟩ with ⟨_, he⟩ | ⟨hfree, _⟩
    · rw [he]
    · rcases hr with hno | hfull
      · exact absurd hno hc
      · omega

theorem own_swap {b b' : Mem.Buffer} (hb : Own b (b' :: rest)) (hb' : Own b' rest) : Own b' (b :: rest) := by
  intro a ha
  rw [owners_cons, hb' a ha]
  split
  · rename_i hba
    have hno := hb a hba
    rw [owners_cons, if_pos ha] at hno
    omega
  · rfl

/-- The temporary buffer of 4096 bytes. -/
theorem null_cases {h : Heap} {live : List Mem.Buffer} (hf : Firm h live) :
    (h.supply h.next = none ∧ Mem.Buffer.null.appendCapacity h (4 * 1024) = (.exhausted, h.denied, .null)) ∨
    (h.supply h.next ≠ none ∧ ∃ h' b, Mem.Buffer.null.appendCapacity h (4 * 1024) = (.ok, h', b) ∧
      Firm h' (b :: live) ∧ Own b live ∧ Same h h' live ∧ b.used = 0 ∧ b.contents h' = [] ∧
      b.capacity h' = 4 * 1024 ∧ h'.supply = h.supply ∧ h'.next = h.next + 1) := by
  have hown : Own .null live := fun _ ha => (nomatch ha)
  have hneed : Mem.Buffer.null.capacity h < Mem.Buffer.null.used + 4 * 1024 := by
    show 0 < 0 + 4 * 1024
    omega
  rcases grown_cases (n := 4 * 1024) (firm_null hf) hown (by decide) with ⟨_, h0, he⟩ | ⟨hgiven, h', b, he, _, hg⟩
  · exact Or.inl ⟨h0, he⟩
  · refine Or.inr ⟨hgiven hneed, h', b, he, firm_given hg.grown.sound, ?_, same_given hg.grown.same, hg.grown.used,
      hg.grown.contents, hg.capacity, hg.supply, by rw [hg.next, if_pos hneed]⟩
    rcases hg.grown.alone with rfl | halone
    · exact hown
    · exact halone

/-- The append to the send buffer, and the temporary buffer `b` destroyed. -/
theorem send_cases {o : Output} {b : Mem.Buffer} (hf : Firm o.heap (o.sendBuffer :: b :: rest))
    (hown : Own o.sendBuffer (b :: rest)) {l : Bytes} (hl : l.length < 2 ^ 32) :
    let granted := (o.sendBuffer.capacity o.heap < o.sendBuffer.used + l.length → o.heap.supply o.heap.next ≠ none) ∧
      o.sendBuffer.used + l.length < 2 ^ 32
    (granted ∧ ∃ o', o.writeToBuffer l false = (.ok, o') ∧ o'.sendBuffer.contents (b.destroy o'.heap) =
      o.sendBuffer.contents o.heap ++ l) ∨
    (¬ granted ∧ (o.writeToBuffer l false).1 ≠ .ok) := by
  dsimp only
  unfold Output.writeToBuffer
  by_cases hlt : o.sendBuffer.used + l.length < 2 ^ 32
  · rcases appended_cases hf hown hlt with ⟨hneed, h0, he⟩ | ⟨hgiven, h', s, he, ha⟩
    · right
      rw [he]
      exact ⟨fun hg => hg.1 hneed h0, Error.noConfusion⟩
    · left
      rw [he]
      obtain ⟨_, hsame⟩ := firm_release (firm_swap ha.firm)
      refine ⟨⟨hgiven, hlt⟩, _, rfl, ?_⟩
      show s.contents (h'.release b.data) = _
      rw [hsame.contents List.mem_cons_self, ha.contents]
  · right
    have hfar := appendBytes_far hf hl (Nat.le_of_not_lt hlt)
    rcases he : o.sendBuffer.appendBytes o.heap l with ⟨e, h', s⟩
    rw [he] at hfar
    refine ⟨fun hg => hlt hg.2, ?_⟩
    cases e with
    | ok => exact absurd rfl hfar
    | _ => exact Error.noConfusion

/-- Once the slot is taken: it is `OK` exactly if every allocation is granted. -/
theorem taken_cases (hr : Ready rest u cmd) (hno : ¬ u.Refused) :
    ∃ q, u.cmdQueue.push ⟨identity reader, some reader⟩ = .ok q ∧
    q.held = u.cmdQueue.held ++ [⟨identity reader, some reader⟩] ∧ (u.pushRequest identity cmd reader).2.cmdQueue = q ∧
    ((u.Granted cmd ∧ (u.pushRequest identity cmd reader).1 = .ok ∧
        (u.pushRequest identity cmd reader).2.pending = u.pending ++ u.encoding cmd) ∨
      (¬ u.Granted cmd ∧ (u.pushRequest identity cmd reader).1 ≠ .ok)) := by
  have hc : ¬ u.serverConn.connected = false := fun hc => hno (Or.inl hc)
  rcases u.cmdQueue.push_held ⟨identity reader, some reader⟩ with ⟨hfull, _⟩ | ⟨_, q, hq, hheld, _⟩
  · exact absurd (Or.inr hfull) hno
  refine ⟨q, hq, hheld, ?_⟩
  have hargs : ∀ arg ∈ cmd.argv, arg ∈ u.serverConn.sendBuffer :: rest :=
    fun arg hm => List.mem_cons_of_mem _ (hr.args arg hm)
  have hflat : (cmd.pieces u.serverConn.heap).flatten = u.encoding cmd := by
    rw [Mem.Cmd.pieces_flatten hr.firm hargs, encoding, formatRESP2_eq, List.nil_append]
  have hone : u.serverConn.heap.Grants 1 ↔ u.serverConn.heap.supply u.serverConn.heap.next ≠ none := by
    simpa using grants_one (h := u.serverConn.heap) (p := True)
  unfold pushRequest
  rw [if_neg hc, hq]
  dsimp only
  rcases null_cases hr.firm with ⟨h0, he⟩ | ⟨h0, h1, b1, he, hf1, hown1, hsame1, hused1, hc1, hcap1, hs1, hn1⟩
  · -- no temporary buffer
    rw [he]
    refine ⟨rfl, Or.inr ⟨fun hg => ?_, Error.noConfusion⟩⟩
    exact hg.1 0 (by unfold allocations; omega) h0
  rw [he]
  dsimp only
  have hpieces : cmd.pieces h1 = cmd.pieces u.serverConn.heap := by
    unfold Mem.Cmd.pieces
    rw [Mem.Cmd.argPieces_same hsame1 hargs]
  have hshort := Mem.Cmd.pieces_short hr.firm hargs hr.count
  rw [Mem.Cmd.formatRESP2_pieces hf1 hown1 hargs hr.count, hpieces]
  have hspec := appendAll_spec (cmd.pieces u.serverConn.heap) h1 b1 hf1 hown1 hshort
  rw [hcap1, hused1, hflat, Nat.zero_add] at hspec
  have hgrants1 := grants_add (n := growths (4 * 1024) 0 (cmd.pieces u.serverConn.heap)) hs1 hn1
  rcases hspec with ⟨hg, hsum, h2, b2, he2, hfill⟩ | ⟨hno, herr⟩
  · -- the command is in the temporary buffer
    have hs2 := hfill.supply.trans hs1
    have hn2 : h2.next = u.serverConn.heap.next + (1 + growths (4 * 1024) 0 (cmd.pieces u.serverConn.heap)) := by
      rw [hfill.next, hn1, hcap1, hused1, Nat.add_assoc]
    have hsame2 := hsame1.trans hfill.same
    have hbytes : b2.contents h2 = u.encoding cmd := by rw [hfill.contents, hc1, hflat, List.nil_append]
    have hsend := send_cases (o := { u.serverConn with heap := h2 }) (l := u.encoding cmd) (firm_swap hfill.firm)
      (own_swap hfill.own hr.own) hsum
    dsimp only at hsend
    rw [hsame2.capacity List.mem_cons_self, hsame2.contents List.mem_cons_self] at hsend
    have hgranted : u.Granted cmd ↔ (u.serverConn.sendBuffer.capacity u.serverConn.heap <
        u.serverConn.sendBuffer.used + (u.encoding cmd).length → h2.supply h2.next ≠ none) ∧
        u.serverConn.sendBuffer.used + (u.encoding cmd).length < 2 ^ 32 := by
      unfold Granted allocations
      rw [grants_add hs2 hn2, grants_one, hgrants1, hone]
      exact ⟨fun hcond => ⟨hcond.1.2, hcond.2⟩, fun hcond => ⟨⟨⟨h0, hg⟩, hcond.1⟩, hcond.2⟩⟩
    rw [he2]
    dsimp only
    rw [hbytes]
    rcases hsend with ⟨hcond, o, he3, hc3⟩ | ⟨hcond, herr⟩
    · rw [he3]
      exact ⟨rfl, Or.inl ⟨hgranted.mpr hcond, rfl, hc3⟩⟩
    · rcases he3 : Output.writeToBuffer { u.serverConn with heap := h2 } (u.encoding cmd) false with ⟨e, o⟩
      rw [he3] at herr
      exact ⟨rfl, Or.inr ⟨fun hg => hcond (hgranted.mp hg), herr⟩⟩
  · -- not all of it
    rcases he2 : b1.appendAll h1 (cmd.pieces u.serverConn.heap) with ⟨e, h2, b2⟩
    rw [he2] at herr
    have hnot : ¬ u.Granted cmd := by
      rintro ⟨hg, hlt⟩
      refine hno ⟨(hgrants1.mp (grants_mono hg ?_)).2, by omega⟩
      exact Nat.le_add_right _ _
    cases e with
    | ok => exact absurd rfl herr
    | _ => exact ⟨rfl, Or.inr ⟨hnot, Error.noConfusion⟩⟩

/-- A push is atomic if and only if it is refused before it takes its slot, or every allocation it
    asks for is granted. -/
theorem pushed_iff (hr : Ready rest u cmd) : u.Atomic identity cmd reader ↔ u.Refused ∨ u.Granted cmd := by
  by_cases hno : u.Refused
  · refine ⟨fun _ => Or.inl hno, fun _ => ?_⟩
    unfold Atomic
    rw [refused_keeps hno]
    exact ⟨rfl, rfl⟩
  · have htaken : ∃ q, u.cmdQueue.push ⟨identity reader, some reader⟩ = .ok q ∧ _ := taken_cases hr hno
    obtain ⟨q, _, hheld, hqueue, hcases⟩ := htaken
    unfold Atomic
    dsimp only
    rw [hqueue]
    rcases hcases with ⟨hg, hok, hpending⟩ | ⟨hg, herr⟩
    · rw [if_pos hok]
      exact ⟨fun _ => Or.inr hg, fun _ => ⟨hheld, hpending⟩⟩
    · rw [if_neg herr]
      refine ⟨fun hsame => ?_, fun hcond => absurd hcond (not_or.mpr ⟨hno, hg⟩)⟩
      have hlen := congrArg List.length hheld
      rw [hsame.1, List.length_append] at hlen
      exact absurd hlen (by simp)

/-- One byte is pending, and the send buffer has no room for the command behind it. -/
theorem pushed_iff_pending :
    let h := (Mem.Buffer.ofBytes (Mem.Buffer.ofBytes (.start fun _ => some fun _ => 0) [71]).2 [80, 73]).2
    let o : Output := { Output.opened h with writable := true, sendBuffer := ⟨some 0, 1, 0⟩ }
    let u : Sender Nat := ⟨o, .create 2 (by decide)⟩
    let cmd : Mem.Cmd := ⟨[⟨some 1, 2, 0⟩], 1⟩
    u.Atomic id cmd 7 ↔ u.Refused ∨ u.Granted cmd := by
  intro h o u cmd
  have hs0 := Heap.sane_start fun _ => some fun _ => 0
  have hs1 := Mem.Buffer.sane_ofBytes hs0 [71]
  have hx1 := Mem.exact_ofBytes hs0 (sound_start fun _ => Option.some_ne_none _).exact [71]
  have hx := Mem.exact_ofBytes hs1 hx1 [80, 73]
  have hfirm : Firm h [⟨some 1, 2, 0⟩, ⟨some 0, 1, 0⟩] := by
    refine ⟨Mem.Buffer.sane_ofBytes hs1 _, hx, fun b hb => ?_⟩
    rcases List.mem_cons.mp hb with rfl | hb
    · exact ⟨by decide, by decide⟩
    · rw [List.mem_singleton.mp hb]
      exact ⟨by decide, by decide⟩
  have hr : Ready [⟨some 1, 2, 0⟩] u cmd :=
    ⟨firm_swap hfirm, fun a ha => by cases ha; decide, fun _ hm => hm, by decide⟩
  exact pushed_iff hr

/-- No memory for the temporary buffer: `Exhausted`, nothing to send, and an entry that waits for
    a reply. -/
theorem entry_left :
    let u : Sender Nat := ⟨.opened (.start fun _ => none), .create 2 (by decide)⟩
    let r := u.pushRequest id .empty 7
    r.1 = .exhausted ∧ u.cmdQueue.held = [] ∧ r.2.cmdQueue.held = [⟨7, some 7⟩] ∧ r.2.pending = [] ∧
      ¬ u.Atomic id .empty 7 := by
  refine ⟨by decide, by decide, by decide, by decide, fun hsame => ?_⟩
  have hqueue := congrArg Recycle.held hsame.1
  exact absurd hqueue (by decide)

end Sender

end RedisProxy.Server
