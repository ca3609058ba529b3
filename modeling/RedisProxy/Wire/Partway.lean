/-
  RedisProxy.Wire.Partway — a reply that is one line or one bulk string, and what of it is
  still unread.

  `Halfway` says where a parser waits that has read all it can. Bytes may have been received
  since, and a call may have ended early: `Partway r q` is the state after the prefix `q` of
  `r`, or `r` and more, some of it unread.

  Proved:
  - `partway_call`: a call returns `OK` when `r` is there whole, which it gives, and leaves what
    follows; else it is not `OK` and the parser is partway.
  - `partway_stalled`: so it is where the call ends behind the item's line, for want of memory.
-/

import RedisProxy.Wire.Edge

namespace RedisProxy.Wire

open Lib.Decimal Lib.Pieces

/-- A null bulk, a non-empty bulk string or a line. -/
def Reply.Single : Reply → Prop
  | .nullArray | .array _ => False
  | .bulk b => b ≠ [] ∧ b.length + 2 < 2 ^ 31
  | _ => True

theorem Reply.Single.steady {r : Reply} (hr : r.Single) : r.Steady := by
  cases r with
  | nullArray => exact hr.elim
  | array rs => exact hr.elim
  | bulk b => exact hr
  | _ => trivial

/-- After `q`, which `r` begins or which begins with `r`. -/
def Partway (r : Reply) (q : Bytes) (P : CmdParser) (resp : Bytes) : Prop :=
  ∃ p P0 u, q = p ++ u ∧ P = P0.feed u ∧ Halfway r p P0 resp

variable {r : Reply} {p q resp d more beyond : Bytes} {P : CmdParser} {len : Int} {o : Nat}

/-- The call's reply type. -/
def CmdParser.mode (P : CmdParser) : ParseType :=
  if P.parseType = .none then responseType (⟨P.inputb, P.inputbr⟩ : BufferReader).current else P.parseType

theorem partway_start (r : Reply) (q : Bytes) : Partway r q ⟨.none, .reset, q, 0⟩ [] := ⟨[], .init, q, rfl, rfl, .start⟩

theorem Halfway.partway (hs : Halfway r q P resp) : Partway r q P resp := by
  refine ⟨q, P, [], (List.append_nil q).symm, ?_, hs⟩
  simp [CmdParser.feed]

theorem Partway.feed (hp : Partway r q P resp) (l : Bytes) : Partway r (q ++ l) (P.feed l) resp := by
  obtain ⟨p, P0, u, rfl, rfl, hs⟩ := hp
  refine ⟨p, P0, u ++ l, List.append_assoc p u l, ?_, hs⟩
  simp [CmdParser.feed]

/-- What has been read is never all of the reply. -/
theorem Halfway.proper (hs : Halfway r p P resp) : Proper p r.encode := by
  cases hs with
  | start => exact proper_nil r.encode_ne_nil
  | line _ hw _ => exact hw
  | count hlay hw _ =>
    rw [hlay.enc]
    exact hw.append_right _
  | header hlay hw _ =>
    rw [hlay.enc, List.flatMap_append, List.flatMap_cons, item_encode]
    simp only [List.append_assoc, proper_append_left]
    exact hw.append_right _
  | payload hlay hw =>
    rw [hlay.enc, List.flatMap_append, List.flatMap_cons, item_encode]
    simp only [List.append_assoc, proper_append_left]
    exact hw.append_right _

/-- What is in the reply buffer and what is unread is what was received. -/
theorem Partway.bytes (hp : Partway r q P resp) : resp ++ P.inputb = q := by
  obtain ⟨p, P0, u, rfl, rfl, hs⟩ := hp
  have h0 : resp ++ P0.inputb = p := by
    cases hs with
    | start => rfl
    | _ => simp
  show resp ++ (P0.inputb ++ u) = p ++ u
  rw [← List.append_assoc, h0]

/-! ## A call -/

theorem partway_call (hr : r.Single) (hp : Partway r q P resp) (hq : q <+: r.encode ++ more)
    (hlt : P.inputb.length < 2 ^ 31) :
    ((P.parseResponse beyond resp).1 ≠ .ok ∧
        Partway r q (P.parseResponse beyond resp).2.1 (P.parseResponse beyond resp).2.2) ∨
      ∃ v, q = r.encode ++ v ∧ Answers r v (P.parseResponse beyond resp) := by
  obtain ⟨p, P0, u, rfl, rfl, hs⟩ := hp
  by_cases h0 : P0.inputb ++ u = []
  · -- nothing to read
    left
    have hend : (⟨(P0.feed u).inputb, (P0.feed u).inputbr⟩ : BufferReader).eof = true := by
      simp [CmdParser.feed, h0, BufferReader.eof]
    unfold CmdParser.parseResponse
    rw [if_pos hend]
    exact ⟨Error.noConfusion, p, P0, u, rfl, rfl, hs⟩
  · by_cases hwhole : r.encode <+: p ++ u
    · right
      obtain ⟨v, hv⟩ := hwhole
      obtain ⟨a, _, ha⟩ := hs.proper
      rw [ha, List.append_assoc] at hv
      obtain rfl : a ++ v = u := List.append_cancel_left hv
      refine ⟨v, by rw [ha, List.append_assoc], parseResponse_whole hr.steady hs ?_ ha.symm⟩
      have hlt : (P0.inputb ++ (a ++ v)).length < 2 ^ 31 := hlt
      rw [List.length_append, List.length_append] at hlt
      rw [List.length_append]
      omega
    · left
      have hpart : Proper (p ++ u) r.encode := by
        rcases List.prefix_or_prefix_of_prefix hq (List.prefix_append r.encode more) with hpre | hpre
        · exact proper_of_ne hpre fun he => hwhole (he ▸ List.prefix_refl _)
        · exact absurd hpre hwhole
      have hwait : Waiting r (p ++ u) ((P0.feed u).parseResponse beyond resp) :=
        parseResponse_part hr.steady hs h0 hlt hpart
      exact ⟨hwait.err, hwait.pos.partway⟩

/-! ## Where the parser stands -/

/-- What `Partway` comes to for one line or one item. -/
inductive Stands (r : Reply) : Bytes → CmdParser → Bytes → Prop
  | fresh (q : Bytes) : Stands r q ⟨.none, .reset, q, 0⟩ []
  | line (q : Bytes) : Stands r q ⟨.inline, .reset, q, 0⟩ []
  | header (q : Bytes) {x : Reply} : Layout r [] 1 [x] → Stands r q ⟨.multibulk, ⟨1, 0, 0⟩, q, 0⟩ []
  | payload (v : Bytes) {x : Reply} : Layout r [] 1 [x] → x.itemBody ≠ [] →
      Stands r (x.itemLine ++ v) ⟨.multibulk, ⟨1, 0, x.itemLen⟩, v, 0⟩ x.itemLine

theorem single_head (hr : r.Single) : r.encode.head? ≠ some 42 := by
  cases r with
  | nullArray => exact hr.elim
  | array rs => exact hr.elim
  | bulk b => simp [Reply.encode, encodeArg, Wire.header, numLine]
  | _ => simp [Reply.encode, numLine]

theorem single_layout (hr : r.Single) {c : Bytes} {rs : List Reply} (hlay : Layout r c len rs) :
    c = [] ∧ len = 1 ∧ ∃ x, rs = [x] := by
  rcases hlay.line with ⟨hc, hlen, _⟩ | ⟨hc, _⟩
  · refine ⟨hc, hlen, List.length_eq_one_iff.mp ?_⟩
    rw [← hlay.count, hlen]
    rfl
  · refine absurd ?_ (single_head hr)
    rw [hlay.enc, hc]
    rfl

theorem Partway.stands (hr : r.Single) (hp : Partway r q P resp) : Stands r q P resp := by
  obtain ⟨p, P0, u, rfl, rfl, hs⟩ := hp
  cases hs with
  | start => exact .fresh _
  | line _ _ _ => exact .line _
  | count hlay hw _ =>
    obtain ⟨rfl, _⟩ := single_layout hr hlay
    exact absurd hw (not_proper_nil _)
  | @header c w len done todo x hlay hw _ =>
    obtain ⟨rfl, rfl, y, hy⟩ := single_layout hr hlay
    obtain ⟨rfl, rfl, rfl⟩ : done = [] ∧ x = y ∧ todo = [] := by simpa [List.append_eq_cons_iff] using hy
    exact .header _ hlay
  | @payload c w len done todo x hlay hw =>
    obtain ⟨rfl, rfl, y, hy⟩ := single_layout hr hlay
    obtain ⟨rfl, rfl, rfl⟩ : done = [] ∧ x = y ∧ todo = [] := by simpa [List.append_eq_cons_iff] using hy
    have hbody : x.itemBody ≠ [] := fun he => not_proper_nil w (he ▸ hw)
    simpa [CmdParser.feed] using Stands.payload (w ++ u) hlay hbody

theorem Stands.inputbr (hs : Stands r q P resp) : P.inputbr = 0 := by
  cases hs <;> rfl

/-- A call on one item has no count line to read. -/
theorem Stands.lone (hs : Stands r q P resp) (hr : r.Single) (hq : q <+: r.encode ++ more)
    (hmode : P.mode = .multibulk) :
    P.multibulkParser.multibulkIndex = 0 ∧ (P.multibulkParser.multibulkLen = 1 ∨
      P.multibulkParser.multibulkLen = 0 ∧ (⟨P.inputb, 0⟩ : BufferReader).current ≠ 42) := by
  cases hs with
  | fresh =>
    refine ⟨rfl, Or.inr ⟨rfl, fun h42 => single_head hr ?_⟩⟩
    cases q with
    | nil => exact absurd h42 (by decide)
    | cons b t =>
      have hb : b = 42 := h42
      obtain ⟨s, hs⟩ := hq
      obtain ⟨b', e, he⟩ := List.exists_cons_of_ne_nil r.encode_ne_nil
      rw [he] at hs ⊢
      rw [← hb, ← (List.cons.inj hs).1]
      rfl
  | line => cases hmode
  | header _ _ => exact ⟨rfl, Or.inl rfl⟩
  | payload _ _ _ => exact ⟨rfl, Or.inl rfl⟩

theorem Stands.bulkLen (hs : Stands r q P resp) (hmode : P.mode ≠ .multibulk) : P.multibulkParser.bulkLen = 0 := by
  cases hs with
  | payload _ _ _ => exact absurd rfl hmode
  | _ => rfl

/-! ## A call that ends behind the item's line -/

theorem stalled_header {x : Reply} (hx : x.IsElement) (hq : q <+: x.encode ++ more) (hlt : q.length < 2 ^ 31)
    (hread : MultibulkParser.readLen beyond 0 ⟨q, 0⟩ (some []) = (.ok, len, some d, ⟨q, o⟩)) (hpos : 0 < len) :
    ∃ v, q = x.itemLine ++ v ∧ d = x.itemLine ∧ len = x.itemLen ∧ o = x.itemLine.length ∧ x.itemBody ≠ [] := by
  have hread : MultibulkParser.readLen beyond 0 (.after [] q) (some []) = (.ok, len, some d, ⟨q, o⟩) := hread
  obtain ⟨l, hl, hlf⟩ := MultibulkParser.item_line hx
  have hline : x.itemLine <+: q := by
    rw [item_encode, List.append_assoc] at hq
    rcases List.prefix_or_prefix_of_prefix hq (List.prefix_append x.itemLine _) with hpre | hpre
    · by_contra hno
      have hpart : Proper q x.itemLine := proper_of_ne hpre fun he => hno (he ▸ List.prefix_refl _)
      rw [hl] at hpart
      obtain ⟨e, he, hno⟩ := MultibulkParser.readInt32_unended beyond 0 (some [])
        (show ([] : Bytes).length < 2 ^ 31 by decide) (hpart.not_mem hlf)
      rw [MultibulkParser.readLen, if_pos rfl, hno] at hread
      exact absurd (congrArg Prod.fst hread) he
    · exact hpre
  obtain ⟨v, rfl⟩ := hline
  refine ⟨v, rfl, ?_⟩
  cases x with
  | bulk b =>
    rw [show (Reply.bulk b).itemLine = numLine 36 b.length from rfl,
      MultibulkParser.readLen_item (Nat.lt_of_add_right_lt hx.2) (by decide)] at hread
    cases hread
    exact ⟨rfl, rfl, rfl, by simp [Reply.itemBody, crlf]⟩
  | _ =>
    -- no number: nothing follows the line
    have hneg := hx.2 (v ++ beyond)
    obtain ⟨l, he, hlf⟩ := hx.1
    have hread' := MultibulkParser.readLen_line beyond (show ([] : Bytes).length < 2 ^ 31 by decide) hlf v []
    simp only [Reply.itemLine] at hread
    rw [he] at hneg hread
    rw [List.append_assoc, List.singleton_append, hread'] at hread
    have hlen : parseInt32 (l ++ [LF]) 1 (v ++ beyond) = len := congrArg (fun w => w.2.1) hread
    omega

/-- The first byte of an item is no line's. -/
theorem fresh_layout (hr : r.Single) (hq : q <+: r.encode ++ more)
    (hmode : CmdParser.responseType (⟨q, 0⟩ : BufferReader).current = .multibulk) : ∃ x, Layout r [] 1 [x] := by
  rcases steady_cases hr.steady with ⟨b, l, he, _, hmark⟩ | ⟨c, len, rs, hlay⟩
  · exfalso
    cases q with
    | nil => cases hmode
    | cons b' t =>
      have hmode : CmdParser.responseType b' = .multibulk := hmode
      obtain ⟨s, hs⟩ := hq
      rw [he] at hs
      obtain rfl : b' = b := (List.cons.inj hs).1
      rcases hmark with rfl | rfl | rfl <;> cases hmode
  · obtain ⟨rfl, rfl, x, rfl⟩ := single_layout hr hlay
    exact ⟨x, hlay⟩

theorem partway_header {x : Reply} (hlay : Layout r [] 1 [x])
    (hq : q <+: r.encode ++ more) (hlt : q.length < 2 ^ 31)
    (hread : MultibulkParser.readLen beyond 0 ⟨q, 0⟩ (some []) = (.ok, len, some d, ⟨q, o⟩)) (hpos : 0 < len) :
    Partway r q ((⟨.multibulk, ⟨1, 0, len⟩, q, 0⟩ : CmdParser).handOver ⟨q, o⟩) d := by
  have henc : r.encode = x.encode := by simpa using hlay.enc
  rw [henc] at hq
  obtain ⟨v, rfl, rfl, rfl, rfl, hbody⟩ := stalled_header (hlay.items x List.mem_cons_self) hq hlt hread hpos
  rw [List.length_append] at hlt
  have hend := CmdParser.handOver_after .multibulk ⟨1, 0, x.itemLen⟩ (show x.itemLine.length < 2 ^ 31 by omega)
    (show x.itemLine ++ v = x.itemLine ++ v from rfl)
  have hend : (⟨.multibulk, ⟨1, 0, x.itemLen⟩, x.itemLine ++ v, 0⟩ : CmdParser).handOver
      ⟨x.itemLine ++ v, x.itemLine.length⟩ = ⟨.multibulk, ⟨1, 0, x.itemLen⟩, v, 0⟩ := hend
  rw [hend]
  have hat := @Halfway.payload r [] [] 1 [] [] x hlay (proper_nil hbody)
  simpa [CmdParser.feed] using hat.partway.feed v

theorem partway_stalled (hr : r.Single) (hp : Partway r q P resp) (hq : q <+: r.encode ++ more)
    (hlt : P.inputb.length < 2 ^ 31) (hmode : P.mode = .multibulk)
    (hread : MultibulkParser.readLen beyond P.multibulkParser.bulkLen ⟨P.inputb, 0⟩ (some resp) =
      (.ok, len, some d, ⟨P.inputb, o⟩))
    (hitem : ¬ (P.multibulkParser.bulkLen = 0 ∧ len ≤ 0)) :
    Partway r q ((⟨.multibulk, ⟨1, 0, len⟩, P.inputb, 0⟩ : CmdParser).handOver ⟨P.inputb, o⟩) d := by
  have hstands := hp.stands hr
  cases hstands with
  | fresh =>
    obtain ⟨x, hlay⟩ := fresh_layout hr hq hmode
    exact partway_header hlay hq hlt hread (Int.not_le.mp fun hle => hitem ⟨rfl, hle⟩)
  | line => cases hmode
  | header _ hlay => exact partway_header hlay hq hlt hread (Int.not_le.mp fun hle => hitem ⟨rfl, hle⟩)
  | @payload v x hlay hbody =>
    -- the line was read by an earlier call
    have hlen : 0 < x.itemLen := (MultibulkParser.item_body (hlay.items x List.mem_cons_self) (proper_nil hbody)).1
    have hread : MultibulkParser.readLen beyond x.itemLen ⟨v, 0⟩ (some x.itemLine) = (.ok, len, some d, ⟨v, o⟩) := hread
    unfold MultibulkParser.readLen at hread
    rw [if_neg (by omega)] at hread
    cases hread
    exact hp

end RedisProxy.Wire
