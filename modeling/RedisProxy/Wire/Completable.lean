/-
  RedisProxy.Wire.Completable — `TryAgain`, and whether the input can still become a
  command.

  `bulkLen_ + 2` is an int32 that `Read` takes as a `std::size_t`. A length below -2 or
  above 2^31 - 3 makes it a size no buffer reaches: `Read` answers `OutOfBound`, the caller
  `TryAgain`, and the saved length keeps the parser there for good.

  Over a run of calls, each on one more chunk and after an `OK` on a reset parser:
  - `requestLoop_held`, `call_held`: as long as every length is in range, a call that does
    not return `OK` stops in a line that can still get a length in range, or in a payload
    that can still be filled up.
  - `held_completes`: from there some continuation is answered with `OK`, whatever memory
    lies behind the input.
  - `lengths_honest`: so over every run whose lengths are all in range.
  - `negative_length_waits`: `*1\r\n$-3\r\n` is answered with `TryAgain`, and so is all that
    follows it.
-/

import RedisProxy.Lib.Runs
import RedisProxy.Wire.Accepted
import RedisProxy.Wire.Progress

namespace RedisProxy.Wire

open Lib Lib.Runs Lib.Decimal

/-! ## Lengths -/

/-- A length that a payload can have: not negative, and its size with the line end an int32. -/
def Fits (v : Int) : Prop := 0 ≤ v ∧ v + 2 < 2 ^ 31

instance (v : Int) : Decidable (Fits v) := inferInstanceAs (Decidable (_ ∧ _))

/-- The first line of `s` read as a number, and what is behind it. -/
def firstLine (beyond s : Bytes) : Option (Int × Bytes) :=
  (memchr s LF).map fun i => (parseInt32 (s.take (i + 1)) 1 (s.drop (i + 1) ++ beyond), s.drop (i + 1))

/-- The numbers of the length lines in `s` that up to `n` arguments have, the first of which
    has the length `b` already unless that is 0. The last line may be cut short: its number
    counts if nothing behind it can change it. -/
def lengths (beyond : Bytes) : Nat → Int → Bytes → List Int
  | 0, _, _ => []
  | n + 1, b, s =>
    if b ≠ 0 then (if b + 2 ≤ s.length then lengths beyond n 0 (s.drop (b + 2).toNat) else [])
    else match firstLine beyond s with
      | some (v, s) => v :: if v + 2 ≤ s.length then lengths beyond n 0 (s.drop (v + 2).toNat) else []
      | none => if settled (s.drop 1) then [atoi (s.drop 1)] else []

/-- The lengths in the input of a parser that reads a multibulk command. -/
def CmdParser.lengths (beyond : Bytes) (P : CmdParser) : List Int :=
  if P.parseType = .inline ∨ P.parseType = .none ∧ P.inputb.head? ≠ some 42 then []
  else if P.multibulkParser.multibulkLen = 0 then
    match firstLine beyond P.inputb with
    | some (k, s) => Wire.lengths beyond k.toNat 0 s
    | none => []
  else Wire.lengths beyond (P.multibulkParser.multibulkLen - P.multibulkParser.multibulkIndex).toNat
    P.multibulkParser.bulkLen P.inputb

theorem CmdParser.lengths_arguments (beyond : Bytes) {k i b : Int} {s : Bytes} (hk : k ≠ 0) :
    CmdParser.lengths beyond ⟨.multibulk, ⟨k, i, b⟩, s, 0⟩ = Wire.lengths beyond (k - i).toNat b s := by
  simp [CmdParser.lengths, hk]

section Lengths

variable {beyond body rest : Bytes}

theorem firstLine_none (h : LF ∉ rest) : firstLine beyond rest = none := by
  rw [firstLine, memchr_none h]
  rfl

theorem firstLine_some (h : LF ∉ body) :
    firstLine beyond (body ++ LF :: rest) = some (parseInt32 (body ++ [LF]) 1 (rest ++ beyond), rest) := by
  have htake : (body ++ LF :: rest).take (body.length + 1) = body ++ [LF] := by
    rw [List.take_append, List.take_of_length_le (by omega)]
    simp
  have hdrop : (body ++ LF :: rest).drop (body.length + 1) = rest := by simp
  rw [firstLine, memchr_found rest h, Option.map_some, htake, hdrop]

end Lengths

/-! ## Where a call stops -/

/-- What keeps an argument waiting: a line cut short whose number can still come into range,
    or a payload cut short. -/
def Stuck (b : Int) (w : Bytes) : Prop :=
  b = 0 ∧ LF ∉ w ∧ (settled (w.drop 1) = true → Fits (atoi (w.drop 1))) ∨ Fits b ∧ (w.length : Int) < b + 2

namespace MultibulkParser

variable (beyond : Bytes) {pre rest : Bytes} {cmd : Cmd} {k : Int}

theorem readSize_fits {v : Int} (h : Fits v) : (readSize v : Int) = v + 2 := by
  obtain ⟨h1, h2⟩ := h
  exact readSize_range (by omega) h2

/-- How the loop leaves when it does not return `OK`. -/
inductive Stops (k : Int) (input : Bytes) : Error × MultibulkParser × Cmd × BufferReader → Prop
  | mk {e : Error} {i b : Int} {cmd : Cmd} {pre rest : Bytes} : 0 ≤ i → i < k → Stuck b rest → input = pre ++ rest →
      Stops k input (e, ⟨k, i, b⟩, cmd, .after pre rest)

/-- A round that has its length. -/
theorem round_held {v : Int} (hv : Fits v) (h : pre.length + rest.length < 2 ^ 31) :
    (v + 2 ≤ rest.length ∧ ∃ d, (BufferReader.after pre rest).read [] (readSize v) =
      (.ok, d, .after (pre ++ rest.take (v + 2).toNat) (rest.drop (v + 2).toNat))) ∨
    ((rest.length : Int) < v + 2 ∧
      (BufferReader.after pre rest).read [] (readSize v) = (.outOfBound, [], .after pre rest)) := by
  have hsize := readSize_fits hv
  have hnat : readSize v = (v + 2).toNat := by omega
  obtain ⟨h1, h2⟩ := hv
  rw [hnat]
  by_cases hle : v + 2 ≤ rest.length
  · exact Or.inl ⟨hle, _, BufferReader.read_some (by omega) (by omega) (by omega)⟩
  · exact Or.inr ⟨by omega, BufferReader.read_short pre [] (by omega)⟩

/-- By induction on the rounds left: with every length in range, the loop returns `OK` or
    stops where it can go on. -/
theorem requestLoop_held (n : Nat) : ∀ {i b : Int} (pre rest : Bytes) (cmd : Cmd), 0 ≤ i → i + n = k →
    b = 0 ∨ Fits b → pre.length + rest.length < 2 ^ 31 → (∀ v ∈ Wire.lengths beyond n b rest, Fits v) →
    (requestLoop beyond n ⟨k, i, b⟩ cmd (.after pre rest)).1 = .ok ∨
      Stops k (pre ++ rest) (requestLoop beyond n ⟨k, i, b⟩ cmd (.after pre rest)) := by
  induction n with
  | zero => exact fun _ _ _ _ _ _ _ _ => Or.inl rfl
  | succ n ih =>
    intro i b pre rest cmd hi hk hb hlen hfits
    -- a round that has the length `v`, with `rest'` behind it
    have hround (v : Int) (pre' rest' : Bytes) (hv : Fits v) (hin : pre ++ rest = pre' ++ rest')
        (hl : readLen beyond b (.after pre rest) none = (.ok, v, none, .after pre' rest'))
        (hmore : v + 2 ≤ rest'.length → ∀ u ∈ Wire.lengths beyond n 0 (rest'.drop (v + 2).toNat), Fits u) :
        (requestLoop beyond (n + 1) ⟨k, i, b⟩ cmd (.after pre rest)).1 = .ok ∨
          Stops k (pre ++ rest) (requestLoop beyond (n + 1) ⟨k, i, b⟩ cmd (.after pre rest)) := by
      have hlen' : pre'.length + rest'.length < 2 ^ 31 := by
        rw [← List.length_append, ← hin, List.length_append]
        exact hlen
      rcases round_held hv hlen' with ⟨hle, d, hr⟩ | ⟨hlt, hr⟩
      · have hdrop : (pre' ++ rest'.take (v + 2).toNat) ++ rest'.drop (v + 2).toNat = pre' ++ rest' := by
          rw [List.append_assoc, List.take_append_drop]
        have hpast : past ⟨k, i, b⟩ 1 = ⟨k, i + 1, 0⟩ := by simp [past]
        rw [requestLoop_read beyond n hl hr, hpast, hin, ← hdrop]
        refine ih _ _ _ (by omega) (by omega) (Or.inl rfl) ?_ (hmore hle)
        rw [← List.length_append, hdrop, List.length_append]
        exact hlen'
      · rw [requestLoop_wait beyond n hl hr]
        exact Or.inr (.mk (i := i) hi (by omega) (Or.inr ⟨hv, hlt⟩) hin)
    by_cases hb0 : b = 0
    · subst hb0
      rw [Wire.lengths, if_neg (by simp)] at hfits
      by_cases hlf : LF ∈ rest
      · obtain ⟨body, rest', rfl, hbody⟩ := List.eq_append_cons_of_mem hlf
        simp only [firstLine_some hbody] at hfits
        have hv := hfits _ List.mem_cons_self
        refine hround _ (pre ++ (body ++ [LF])) rest' hv (by simp) ?_ fun hle u hu => hfits u ?_
        · rw [readLen, if_pos rfl, readInt32_line beyond 0 none (by omega) hbody]
          rfl
        · rw [if_pos hle]
          exact List.mem_cons_of_mem _ hu
      · rw [firstLine_none hlf] at hfits
        have hstuck : Stuck 0 rest := by
          refine Or.inl ⟨rfl, hlf, fun hset => hfits _ ?_⟩
          rw [hset, if_pos rfl]
          exact List.mem_singleton_self _
        obtain ⟨e, he, hl⟩ := readInt32_unended beyond 0 none (show pre.length < 2 ^ 31 by omega) hlf
        have hl : readLen beyond 0 (.after pre rest) none = (e, 0, none, .after pre rest) := by
          rw [readLen, if_pos rfl, hl]
        rw [requestLoop_fail beyond n he hl]
        exact Or.inr (.mk (i := i) hi (by omega) hstuck rfl)
    · rw [Wire.lengths, if_pos hb0] at hfits
      refine hround b pre rest (hb.resolve_left hb0) rfl ?_ fun hle u hu => hfits u ?_
      · rw [readLen, if_neg hb0]
      · rwa [if_pos hle]

end MultibulkParser

/-- The parser between calls, as long as every length has been in range. -/
inductive Held : CmdParser → Prop
  | fresh {w : Bytes} : Held ⟨.none, .reset, w, 0⟩
  | inline {w : Bytes} : Held ⟨.inline, .reset, w, 0⟩
  | count {w : Bytes} : LF ∉ w → w.length < 2 ^ 31 → Held ⟨.multibulk, .reset, w, 0⟩
  | arguments {k i b : Int} {w : Bytes} : 0 ≤ i → i < k → Stuck b w → w.length < 2 ^ 31 →
      Held ⟨.multibulk, ⟨k, i, b⟩, w, 0⟩

section Call

variable {beyond input c : Bytes} {k : Int} {P : CmdParser} {cmd : Cmd}

theorem Held.atRest (h : Held P) : P.AtRest := by
  cases h with
  | fresh => exact ⟨rfl, fun _ => rfl⟩
  | inline => exact ⟨rfl, fun he => by cases he⟩
  | count => exact ⟨rfl, fun he => by cases he⟩
  | arguments => exact ⟨rfl, fun he => by cases he⟩

/-- Where the loop stops, handed over. -/
theorem held_of_stops {res : Error × MultibulkParser × Cmd × BufferReader} (hlen : input.length < 2 ^ 31)
    (h : MultibulkParser.Stops k input res) :
    Held (CmdParser.handOver ⟨.multibulk, res.2.1, input, 0⟩ res.2.2.2) := by
  cases h with
  | @mk e i b cmd pre rest hi hk hstuck hin =>
    rw [hin, List.length_append] at hlen
    rw [CmdParser.handOver_after .multibulk ⟨k, i, b⟩ (by omega) hin]
    exact .arguments hi hk hstuck (by omega)

/-- A call that looks for the count line. -/
theorem count_held {type : ParseType} (ht : type = .multibulk ∨ type = .none ∧ input.head? = some 42)
    (h0 : input ≠ []) (hlen : input.length < 2 ^ 31)
    (hfits : ∀ v ∈ CmdParser.lengths beyond ⟨type, .reset, input, 0⟩, Fits v) :
    (CmdParser.parseRequest beyond ⟨type, .reset, input, 0⟩ cmd).1 = .ok ∨
      Held (CmdParser.parseRequest beyond ⟨type, .reset, input, 0⟩ cmd).2.1 := by
  have hmode : ¬ (type = .inline ∨ type = .none ∧ input.head? ≠ some 42) := by
    rcases ht with rfl | ⟨rfl, h42⟩
    · simp
    · simp [h42]
  simp only [CmdParser.lengths, if_neg hmode, MultibulkParser.reset, if_true] at hfits
  rw [CmdParser.parseRequest_handle .reset cmd ht h0, MultibulkParser.handleRequest, MultibulkParser.readLen,
    MultibulkParser.reset, if_pos rfl]
  by_cases hlf : LF ∈ input
  · obtain ⟨body, rest, rfl, hbody⟩ := List.eq_append_cons_of_mem hlf
    simp only [firstLine_some hbody] at hfits
    rw [MultibulkParser.readInt32_line beyond 0 none (by decide) hbody, List.nil_append]
    generalize parseInt32 (body ++ [LF]) 1 (rest ++ beyond) = k at hfits
    by_cases hk : k ≤ 0
    · left
      have hrounds : (k - 0).toNat = 0 := by omega
      simp only [hrounds]
      rfl
    · have hin : body ++ [LF] ++ rest = body ++ LF :: rest := by simp
      have hloop := MultibulkParser.requestLoop_held (k := k) beyond k.toNat (body ++ [LF]) rest cmd (Int.le_refl 0)
        (by omega) (Or.inl rfl) (by rw [← List.length_append, hin]; exact hlen) hfits
      rw [hin] at hloop
      have hrounds : (k - 0).toNat = k.toNat := by omega
      simp only [hrounds]
      exact hloop.imp id (held_of_stops hlen)
  · right
    rw [MultibulkParser.readInt32_part beyond 0 none (by decide) h0 hlf]
    show Held (CmdParser.handOver ⟨.multibulk, .reset, input, 0⟩ (.after [] input))
    rw [CmdParser.handOver_after .multibulk .reset (by decide) (List.nil_append _).symm]
    exact .count hlf hlen

/-- A call in inline mode. -/
theorem inline_held {type : ParseType} (ht : type = .inline ∨ type = .none ∧ input.head? ≠ some 42)
    (h0 : input ≠ []) : Held (CmdParser.parseRequest beyond ⟨type, .reset, input, 0⟩ cmd).2.1 := by
  rcases hr : InlineParser.handleRequest cmd (.after [] input) with ⟨e, cmd', r⟩
  rw [parseRequest_handOver ht h0 hr]
  show Held (CmdParser.handOver ⟨.inline, .reset, input, 0⟩ r)
  rw [CmdParser.handOver]
  split <;> exact .inline

theorem call_held (cmd : Cmd) (h : Held P) (hlen : (P.inputb ++ c).length < 2 ^ 31)
    (hfits : ∀ v ∈ (P.feed c).lengths beyond, Fits v) :
    (CmdParser.parseRequest beyond (P.feed c) cmd).1 = .ok ∨
      Held (CmdParser.parseRequest beyond (P.feed c) cmd).2.1 := by
  by_cases h0 : P.inputb ++ c = []
  · obtain ⟨hP, rfl⟩ := List.append_eq_nil_iff.mp h0
    have hstay : P.feed [] = P := by simp [CmdParser.feed]
    have hcall : CmdParser.parseRequest beyond P cmd = (.tryAgain, P, cmd) := by
      cases h <;> · subst hP; exact CmdParser.parseRequest_nil _ _ _
    rw [hstay, hcall]
    exact Or.inr h
  · cases h with
    | @fresh w =>
      by_cases h42 : (w ++ c).head? = some 42
      · exact count_held (Or.inr ⟨rfl, h42⟩) h0 hlen hfits
      · exact Or.inr (inline_held (Or.inr ⟨rfl, h42⟩) h0)
    | inline => exact Or.inr (inline_held (Or.inl rfl) h0)
    | count => exact count_held (Or.inl rfl) h0 hlen hfits
    | @arguments k i b w hi hk hstuck =>
      have hk0 : k ≠ 0 := by omega
      have hb : b = 0 ∨ Fits b := hstuck.imp And.left And.left
      rw [CmdParser.feed, CmdParser.lengths_arguments beyond hk0] at hfits
      have hloop := MultibulkParser.requestLoop_held (k := k) beyond (k - i).toNat [] (w ++ c) cmd hi (by omega) hb
        (by rw [List.length_nil, Nat.zero_add]; exact hlen) hfits
      rw [CmdParser.feed, CmdParser.parseRequest_handle _ cmd (Or.inl rfl) h0, MultibulkParser.handleRequest,
        MultibulkParser.readLen, if_neg hk0]
      exact hloop.imp id (held_of_stops hlen)

end Call

/-! ## What completes a command -/

/-- Chunks that complete the command: whatever lies behind the input, every call but the last
    answers `TryAgain` and the last `OK`. No buffer reaches 2^32 bytes. -/
inductive Completes : CmdParser → Cmd → List Bytes → Prop
  | last {P : CmdParser} {cmd : Cmd} {c : Bytes} : (P.inputb ++ c).length < 2 ^ 32 →
      (∀ beyond, (CmdParser.parseRequest beyond (P.feed c) cmd).1 = .ok) → Completes P cmd [c]
  | more {P P' : CmdParser} {cmd cmd' : Cmd} {c : Bytes} {cs : List Bytes} : (P.inputb ++ c).length < 2 ^ 32 →
      (∀ beyond, CmdParser.parseRequest beyond (P.feed c) cmd = (.tryAgain, P', cmd')) → Completes P' cmd' cs →
      Completes P cmd (c :: cs)

/-- The first byte of the next argument's line, if `n` more are to come. -/
def opening (n : Nat) : Bytes := if n = 0 then [] else [36]

section Completes

variable {k i b : Int} {w c : Bytes} {cmd cmd' : Cmd} {P : CmdParser} {n : Nat}

theorem length_opening (n : Nat) : (opening n).length ≤ 1 := by
  unfold opening
  split <;> simp

theorem requestLoop_opening (beyond : Bytes) {pre : Bytes} (h : pre.length < 2 ^ 31) (k i : Int) (cmd : Cmd) (n : Nat) :
    MultibulkParser.requestLoop beyond n ⟨k, i, 0⟩ cmd (.after pre (opening n)) =
      (if n = 0 then .ok else .tryAgain, ⟨k, i, 0⟩, cmd, .after pre (opening n)) := by
  cases n with
  | zero => rfl
  | succ n =>
    have hl : MultibulkParser.readLen beyond 0 (.after pre [36]) none = (.tryAgain, 0, none, .after pre [36]) := by
      rw [MultibulkParser.readLen, if_pos rfl]
      exact MultibulkParser.readInt32_part beyond 0 none h (by simp) (by decide)
    exact MultibulkParser.requestLoop_fail beyond n (by simp) hl

theorem handleRequest_rounds (beyond : Bytes) (hk : k ≠ 0) (hn : k - i = n) (r : BufferReader) :
    MultibulkParser.handleRequest beyond ⟨k, i, b⟩ cmd r = MultibulkParser.requestLoop beyond n ⟨k, i, b⟩ cmd r := by
  have hrounds : (k - i).toNat = n := by omega
  rw [MultibulkParser.handleRequest, MultibulkParser.readLen, if_neg hk]
  simp only [hrounds]

/-- The chunk that fills an argument up completes the command, or leaves one argument less. -/
theorem completes_next (hsize : (P.inputb ++ c).length < 2 ^ 32)
    (hcall : ∀ beyond, CmdParser.parseRequest beyond (P.feed c) cmd =
      (if n = 0 then .ok else .tryAgain, ⟨.multibulk, ⟨k, i, 0⟩, opening n, 0⟩, cmd'))
    (hnext : n ≠ 0 → ∃ cs, Completes ⟨.multibulk, ⟨k, i, 0⟩, opening n, 0⟩ cmd' cs) : ∃ cs, Completes P cmd cs := by
  by_cases hn : n = 0
  · refine ⟨[c], .last hsize fun beyond => ?_⟩
    rw [hcall, if_pos hn]
  · obtain ⟨cs, hcs⟩ := hnext hn
    refine ⟨c :: cs, .more hsize (fun beyond => ?_) hcs⟩
    rw [hcall, if_neg hn]

/-- The parser waits for an argument, of which it has at most the marker. -/
theorem completes_round (hi : 0 ≤ i) (hk : i + (n + 1) = k) (hw : w = [] ∨ w = [36])
    (hnext : n ≠ 0 → ∃ cs, Completes ⟨.multibulk, ⟨k, i + 1, 0⟩, opening n, 0⟩ (cmd ++ [[97]]) cs) :
    ∃ cs, Completes ⟨.multibulk, ⟨k, i, 0⟩, w, 0⟩ cmd cs := by
  obtain ⟨c, hc⟩ : ∃ c, w ++ c = encodeArg [97] ++ opening n := by
    rcases hw with rfl | rfl
    · exact ⟨_, rfl⟩
    · exact ⟨(encodeArg [97]).tail ++ opening n, rfl⟩
  have hopen := length_opening n
  have hseven : (encodeArg [97]).length = 7 := by decide
  have hsize : (w ++ c).length < 2 ^ 32 := by
    rw [hc, List.length_append]
    omega
  refine completes_next (n := n) (k := k) (i := i + 1) hsize (fun beyond => ?_) hnext
  have h0 : w ++ c ≠ [] := by
    rw [hc]
    exact List.append_ne_nil_of_left_ne_nil (by decide) _
  have hloop : MultibulkParser.handleRequest beyond ⟨k, i, 0⟩ cmd (.after [] (w ++ c)) =
      (if n = 0 then .ok else .tryAgain, ⟨k, i + 1, 0⟩, cmd ++ [[97]], .after (encodeArg [97]) (opening n)) := by
    have hpast : MultibulkParser.past ⟨k, i, 0⟩ 1 = ⟨k, i + 1, 0⟩ := rfl
    rw [handleRequest_rounds beyond (by omega) (show k - i = (n + 1 : Nat) by omega), hc,
      MultibulkParser.requestLoop_arg beyond (by rw [List.length_nil, hseven]; omega) rfl, hpast, List.nil_append,
      requestLoop_opening beyond (by rw [hseven]; omega)]
  exact CmdParser.parseRequest_multibulk _ _ (Or.inl rfl) h0 (by rw [hseven]; omega) hc hloop

/-- `$1\r\na\r\n` for each argument that is left, by induction on their number. -/
theorem completes_opened (n : Nat) : ∀ {i : Int} {w : Bytes} {cmd : Cmd}, 0 ≤ i → i + (n + 1) = k → w = [] ∨ w = [36] →
    ∃ cs, Completes ⟨.multibulk, ⟨k, i, 0⟩, w, 0⟩ cmd cs := by
  induction n with
  | zero =>
    intro i w cmd hi hk hw
    exact completes_round (n := 0) hi hk hw fun h0 => absurd rfl h0
  | succ n ih =>
    intro i w cmd hi hk hw
    exact completes_round (n := n + 1) hi (by omega) hw fun _ => ih (by omega) (by omega) (Or.inr rfl)

theorem completes_marker (hi : 0 ≤ i) (hk : i < k) (hw : w = [] ∨ w = [36]) :
    ∃ cs, Completes ⟨.multibulk, ⟨k, i, 0⟩, w, 0⟩ cmd cs :=
  completes_opened (k - i - 1).toNat hi (by omega) hw

/-- A payload, of which `w` is there. -/
theorem completes_payload (hi : 0 ≤ i) (hk : i < k) (hb0 : b ≠ 0) (hb : -1 ≤ b) (hmax : b + 2 < 2 ^ 31)
    (hw : (w.length : Int) < b + 2) : ∃ cs, Completes ⟨.multibulk, ⟨k, i, b⟩, w, 0⟩ cmd cs := by
  obtain ⟨n, hn⟩ : ∃ n : Nat, k - i = (n + 1 : Nat) := ⟨(k - i - 1).toNat, by omega⟩
  have hsize : MultibulkParser.readSize b = (b + 2).toNat := by
    have hrange := MultibulkParser.readSize_range (show -2 ≤ b by omega) hmax
    omega
  obtain ⟨d, hd, hlen⟩ : ∃ d, w <+: d ∧ d.length = (b + 2).toNat :=
    ⟨w ++ List.replicate ((b + 2).toNat - w.length) 0, List.prefix_append _ _, by
      rw [List.length_append, List.length_replicate]
      omega⟩
  obtain ⟨u, rfl⟩ := hd
  have hne : w ++ u ≠ [] := by
    intro h0
    rw [h0, List.length_nil] at hlen
    omega
  have hopen := length_opening n
  have hin : w ++ (u ++ opening n) = w ++ u ++ opening n := (List.append_assoc _ _ _).symm
  have hcall (beyond : Bytes) : CmdParser.parseRequest beyond ⟨.multibulk, ⟨k, i, b⟩, w ++ (u ++ opening n), 0⟩ cmd =
      (if n = 0 then .ok else .tryAgain, ⟨.multibulk, ⟨k, i + 1, 0⟩, opening n, 0⟩,
        cmd ++ [Buffer.trim (w ++ u) 2]) := by
    have hl : MultibulkParser.readLen beyond b (.after [] (w ++ u ++ opening n)) none =
        (.ok, b, none, .after [] (w ++ u ++ opening n)) := by
      rw [MultibulkParser.readLen, if_neg hb0]
    have hr : (BufferReader.after [] (w ++ u ++ opening n)).read [] (MultibulkParser.readSize b) =
        (.ok, w ++ u, .after (w ++ u) (opening n)) := by
      rw [hsize, ← hlen]
      exact BufferReader.read_found (by decide) [] hne (opening n)
    have hloop : MultibulkParser.handleRequest beyond ⟨k, i, b⟩ cmd (.after [] (w ++ (u ++ opening n))) =
        (if n = 0 then .ok else .tryAgain, ⟨k, i + 1, 0⟩, cmd ++ [Buffer.trim (w ++ u) 2],
          .after (w ++ u) (opening n)) := by
      have hpast : MultibulkParser.past ⟨k, i, b⟩ 1 = ⟨k, i + 1, 0⟩ := rfl
      rw [handleRequest_rounds beyond (by omega) hn, hin, MultibulkParser.requestLoop_read beyond n hl hr, hpast,
        requestLoop_opening beyond (by omega)]
    refine CmdParser.parseRequest_multibulk _ _ (Or.inl rfl) ?_ (by omega) hin hloop
    rw [hin]
    exact List.append_ne_nil_of_left_ne_nil hne _
  have hsize' : (w ++ (u ++ opening n)).length < 2 ^ 32 := by
    rw [hin, List.length_append, hlen]
    omega
  exact completes_next hsize' hcall fun h0 => completes_marker (by omega) (by omega) (Or.inr (if_neg h0))

/-- What a line cut short at `w` can be ended with, and the number it then has whatever
    follows: its own if it has ended, else one that is out of the way. -/
theorem line_end (hw : LF ∉ w) : ∃ x v, LF ∉ w ++ x ∧ x.length ≤ 20 ∧
    (∀ beyond, parseInt32 (w ++ x ++ [LF]) 1 beyond = v) ∧
    (settled (w.drop 1) = true ∧ v = atoi (w.drop 1) ∨ settled (w.drop 1) = false ∧ (v = -1 ∨ v = 0)) := by
  have hnines : LF ∉ nines := by decide
  -- behind the first byte of the line
  have hread (b : Byte) (t x beyond : Bytes) :
      parseInt32 (b :: t ++ x ++ [LF]) 1 beyond = atoi (t ++ (x ++ LF :: beyond)) := by
    have hlen : ¬ (b :: t ++ x ++ [LF]).length ≤ 1 := by simp
    rw [parseInt32, if_neg hlen]
    simp
  have hmark (b : Byte) (t : Bytes) (hset : settled t = false) (beyond : Bytes) :
      parseInt32 (b :: t ++ nines ++ [LF]) 1 beyond = atoi (t ++ (nines ++ [LF])) := by
    have hdone : settled (t ++ nines ++ [LF]) = true := (settled_line _).mpr ⟨57, by simp [nines], rfl⟩
    have hsame := atoi_settled hdone beyond
    rw [hread]
    simpa using hsame
  cases hb : w with
  | nil =>
    refine ⟨36 :: nines, atoi ([] ++ (nines ++ [LF])), by decide, by decide, ?_, Or.inr ⟨rfl, atoi_saturated rfl []⟩⟩
    exact hmark 36 [] rfl
  | cons b t =>
    rw [hb] at hw
    rw [List.drop_succ_cons, List.drop_zero]
    cases hset : settled t with
    | true =>
      refine ⟨[], atoi t, by rwa [List.append_nil], by simp, fun beyond => ?_, Or.inl ⟨rfl, rfl⟩⟩
      rw [hread, atoi_settled hset]
    | false =>
      refine ⟨nines, atoi (t ++ (nines ++ [LF])), ?_, by decide, hmark b t hset, Or.inr ⟨rfl, atoi_saturated hset []⟩⟩
      rw [List.mem_append, not_or]
      exact ⟨hw, hnines⟩

/-- An argument's line, of which `w` is there. -/
theorem completes_line (hi : 0 ≤ i) (hk : i < k) (hlf : LF ∉ w) (hlen : w.length < 2 ^ 31)
    (hset : settled (w.drop 1) = true → Fits (atoi (w.drop 1))) :
    ∃ cs, Completes ⟨.multibulk, ⟨k, i, 0⟩, w, 0⟩ cmd cs := by
  obtain ⟨x, v, hbody, hx, hv, hnum⟩ := line_end hlf
  obtain ⟨n, hn⟩ : ∃ n : Nat, k - i = (n + 1 : Nat) := ⟨(k - i - 1).toNat, by omega⟩
  have hrange : v = 0 ∨ v ≠ 0 ∧ -1 ≤ v ∧ v + 2 < 2 ^ 31 := by
    rcases hnum with ⟨hs, rfl⟩ | ⟨-, rfl | rfl⟩
    · obtain ⟨h1, h2⟩ := hset hs
      omega
    · omega
    · exact Or.inl rfl
  have hin : w ++ (x ++ [LF]) = w ++ x ++ [LF] := (List.append_assoc _ _ _).symm
  have hcall (beyond : Bytes) : CmdParser.parseRequest beyond ⟨.multibulk, ⟨k, i, 0⟩, w ++ (x ++ [LF]), 0⟩ cmd =
      (.tryAgain, ⟨.multibulk, ⟨k, i, v⟩, [], 0⟩, cmd) := by
    have hl : MultibulkParser.readLen beyond 0 (.after [] (w ++ x ++ LF :: [])) none =
        (.ok, v, none, .after (w ++ x ++ [LF]) []) := by
      rw [MultibulkParser.readLen, if_pos rfl, MultibulkParser.readInt32_line beyond 0 none (by decide) hbody, hv]
      rfl
    have hloop : MultibulkParser.handleRequest beyond ⟨k, i, 0⟩ cmd (.after [] (w ++ x ++ [LF])) =
        (.tryAgain, ⟨k, i, v⟩, cmd, .after (w ++ x ++ [LF]) []) := by
      rw [handleRequest_rounds beyond (by omega) hn]
      exact MultibulkParser.requestLoop_wait beyond n hl (BufferReader.read_nil _ _ _)
    rw [hin, CmdParser.parseRequest_handle _ cmd (Or.inl rfl) (by simp), hloop, CmdParser.handOver_end]
  have hsize : (w ++ (x ++ [LF])).length < 2 ^ 32 := by
    simp only [List.length_append, List.length_singleton]
    omega
  obtain ⟨cs, hcs⟩ : ∃ cs, Completes ⟨.multibulk, ⟨k, i, v⟩, [], 0⟩ cmd cs := by
    rcases hrange with rfl | ⟨h0, h1, h2⟩
    · exact completes_marker hi hk (Or.inl rfl)
    · exact completes_payload hi hk h0 h1 h2 (by rw [List.length_nil]; omega)
  exact ⟨_, .more hsize hcall hcs⟩

/-- Half a line end behind the line of an empty argument: it is read as a line of its own. -/
theorem completes_lf (hi : 0 ≤ i) (hk : i < k) : ∃ cs, Completes ⟨.multibulk, ⟨k, i, 0⟩, [LF], 0⟩ cmd cs := by
  obtain ⟨n, hn⟩ : ∃ n : Nat, k - i = (n + 1 : Nat) := ⟨(k - i - 1).toNat, by omega⟩
  have hcall (beyond : Bytes) : CmdParser.parseRequest beyond ⟨.multibulk, ⟨k, i, 0⟩, [LF] ++ [36], 0⟩ cmd =
      (.tryAgain, ⟨.multibulk, ⟨k, i, 0⟩, [36], 0⟩, cmd) := by
    have hl : MultibulkParser.readLen beyond 0 (.after [] ([] ++ LF :: [36])) none =
        (.ok, 0, none, .after [LF] [36]) := by
      rw [MultibulkParser.readLen, if_pos rfl, MultibulkParser.readInt32_line beyond 0 none (by decide) (by decide)]
      rfl
    have hr : (BufferReader.after [LF] [36]).read [] (MultibulkParser.readSize 0) =
        (.outOfBound, [], .after [LF] [36]) :=
      BufferReader.read_short _ _ (by decide)
    have hloop : MultibulkParser.handleRequest beyond ⟨k, i, 0⟩ cmd (.after [] ([LF] ++ [36])) =
        (.tryAgain, ⟨k, i, 0⟩, cmd, .after [LF] [36]) := by
      rw [handleRequest_rounds beyond (by omega) hn]
      exact MultibulkParser.requestLoop_wait beyond n hl hr
    exact CmdParser.parseRequest_multibulk _ _ (Or.inl rfl) (by decide) (by decide) rfl hloop
  obtain ⟨cs, hcs⟩ := completes_marker hi hk (Or.inr rfl)
  exact ⟨_, .more (show ([LF] ++ [36]).length < 2 ^ 32 by decide) hcall hcs⟩

/-- The count line, of which `w` is there. -/
theorem completes_count (hlf : LF ∉ w) (hlen : w.length < 2 ^ 31) :
    ∃ cs, Completes ⟨.multibulk, .reset, w, 0⟩ cmd cs := by
  obtain ⟨x, v, hbody, hx, hv, -⟩ := line_end hlf
  -- what the loop finds behind the line
  have hcount (beyond rest : Bytes) :
      MultibulkParser.handleRequest beyond .reset cmd (.after [] (w ++ x ++ LF :: rest)) =
        MultibulkParser.requestLoop beyond v.toNat ⟨v, 0, 0⟩ cmd (.after (w ++ x ++ [LF]) rest) := by
    have hrounds : (v - 0).toNat = v.toNat := by omega
    rw [MultibulkParser.handleRequest, MultibulkParser.readLen, MultibulkParser.reset, if_pos rfl,
      MultibulkParser.readInt32_line beyond 0 none (by decide) hbody, hv]
    simp only [hrounds, List.nil_append]
  by_cases hpos : v ≤ 0
  · have hin : w ++ (x ++ [LF]) = w ++ x ++ LF :: [] := by simp
    refine ⟨[x ++ [LF]], .last ?_ fun beyond => ?_⟩
    · simp only [List.length_append, List.length_singleton]
      omega
    · have hzero : v.toNat = 0 := by omega
      rw [CmdParser.feed, CmdParser.parseRequest_handle _ cmd (Or.inl rfl) (by simp), hin, hcount, hzero]
      rfl
  · have hin : w ++ (x ++ [LF, 36]) = w ++ x ++ LF :: [36] := by simp
    obtain ⟨n, hn⟩ : ∃ n, v.toNat = n + 1 := ⟨v.toNat - 1, by omega⟩
    have hl (beyond : Bytes) : MultibulkParser.readLen beyond 0 (.after (w ++ x ++ [LF]) [36]) none =
        (.tryAgain, 0, none, .after (w ++ x ++ [LF]) [36]) := by
      rw [MultibulkParser.readLen, if_pos rfl]
      by_cases hfar : (w ++ x ++ [LF]).length < 2 ^ 31
      · exact MultibulkParser.readInt32_part beyond 0 none hfar (by simp) (by decide)
      · exact MultibulkParser.readInt32_far beyond 0 none hfar (by simp)
    have hcall (beyond : Bytes) : CmdParser.parseRequest beyond ⟨.multibulk, .reset, w ++ (x ++ [LF, 36]), 0⟩ cmd =
        (.tryAgain, CmdParser.handOver ⟨.multibulk, ⟨v, 0, 0⟩, w ++ (x ++ [LF, 36]), 0⟩
          (.after (w ++ x ++ [LF]) [36]), cmd) := by
      rw [CmdParser.parseRequest_handle _ cmd (Or.inl rfl) (by simp), hin, hcount, hn,
        MultibulkParser.requestLoop_fail beyond n (by simp) (hl beyond)]
    -- a line that ends at 2^31 takes the marker behind it along
    have hleft : ∃ u, (u = [] ∨ u = [36]) ∧ CmdParser.handOver ⟨.multibulk, ⟨v, 0, 0⟩, w ++ (x ++ [LF, 36]), 0⟩
        (.after (w ++ x ++ [LF]) [36]) = ⟨.multibulk, ⟨v, 0, 0⟩, u, 0⟩ := by
      by_cases hfar : (w ++ x ++ [LF]).length < 2 ^ 31
      · exact ⟨[36], Or.inr rfl, CmdParser.handOver_after .multibulk _ hfar (by simp)⟩
      · exact ⟨[], Or.inl rfl, CmdParser.handOver_far .multibulk _ hfar⟩
    obtain ⟨u, hu, hleft⟩ := hleft
    rw [hleft] at hcall
    obtain ⟨cs, hcs⟩ := completes_marker (k := v) (Int.le_refl 0) (by omega) hu
    refine ⟨_, .more ?_ hcall hcs⟩
    simp only [List.length_append, List.length_cons, List.length_nil]
    omega

/-- From every position a call stops at, some continuation completes the command. -/
theorem held_completes (h : Held P) (hm : P.parseType = .multibulk) : ∃ cs, Completes P cmd cs := by
  cases h with
  | fresh => cases hm
  | inline => cases hm
  | count hlf hlen => exact completes_count hlf hlen
  | @arguments k i b w hi hk hstuck hlen =>
    rcases hstuck with ⟨rfl, hlf, hset⟩ | ⟨⟨hb1, hb2⟩, hw⟩
    · exact completes_line hi hk hlf hlen hset
    · by_cases hb0 : b = 0
      · subst hb0
        have hw1 : w.length < 2 := by omega
        cases w with
        | nil => exact completes_marker hi hk (Or.inl rfl)
        | cons ch t =>
          have ht : t = [] := List.eq_nil_of_length_eq_zero (by rw [List.length_cons] at hw1; omega)
          subst ht
          by_cases hch : ch = LF
          · subst hch
            exact completes_lf hi hk
          · exact completes_line hi hk (by simpa using Ne.symm hch) hlen fun hset => by cases hset
      · exact completes_payload hi hk hb0 (by omega) hb2 hw

end Completes

/-! ## Over a run -/

/-- A call on one more chunk, with the memory behind the input. Behind an `OK` the parser is
    reset and the next command starts. -/
def receiveStep (s : CmdParser × Cmd) (e : Bytes × Bytes) : CmdParser × Cmd :=
  let res := CmdParser.parseRequest e.2 (s.1.feed e.1) s.2
  if res.1 = .ok then (res.2.1.reset, []) else res.2

/-- The call finds fewer than 2^31 bytes, and no length out of range. -/
def InRange (s : CmdParser × Cmd) (e : Bytes × Bytes) : Prop :=
  (s.1.inputb ++ e.1).length < 2 ^ 31 ∧ ∀ v ∈ (s.1.feed e.1).lengths e.2, Fits v

instance (s : CmdParser × Cmd) (e : Bytes × Bytes) : Decidable (InRange s e) := inferInstanceAs (Decidable (_ ∧ _))

/-- `TryAgain` is answered only where some continuation completes the command, and a length
    out of range with another error. -/
def Honest (s : CmdParser × Cmd) (e : Bytes × Bytes) : Prop :=
  let res := CmdParser.parseRequest e.2 (s.1.feed e.1) s.2
  (res.1 = .tryAgain → res.2.1.parseType = .multibulk → ∃ cs, Completes res.2.1 res.2.2 cs) ∧
    ∀ v ∈ (s.1.feed e.1).lengths e.2, ¬ Fits v → res.1 ≠ .ok ∧ res.1 ≠ .tryAgain

theorem step_honest (s : CmdParser × Cmd) (e : Bytes × Bytes) (h : Held s.1) (hr : InRange s e) :
    Held (receiveStep s e).1 ∧ Honest s e := by
  obtain ⟨hlen, hfits⟩ := hr
  have hstart := (CmdParser.parseRequest_progress (h.atRest.feed e.1) e.2 s.2).1.start
  have hcall := call_held s.2 h hlen hfits
  unfold receiveStep Honest
  generalize CmdParser.parseRequest e.2 (s.1.feed e.1) s.2 = res at hstart hcall
  obtain ⟨err, P, cmd⟩ := res
  refine ⟨?_, ?_, fun v hv hno => absurd (hfits v hv) hno⟩
  · by_cases hok : err = .ok
    · rw [if_pos hok]
      obtain ⟨type, m, w, off⟩ := P
      obtain rfl : off = 0 := hstart
      exact .fresh
    · rw [if_neg hok]
      exact hcall.resolve_left hok
  · intro htry hm
    exact held_completes (hcall.resolve_left fun hok => by rw [htry] at hok; cases hok) hm

/-- Over every run of calls whose lengths are in range: where the answer is `TryAgain`, the
    command can still be completed. -/
theorem lengths_honest (events : List (Bytes × Bytes)) (h : Each receiveStep InRange (.init, []) events) :
    Each receiveStep Honest (.init, []) events :=
  each_keeps (I := fun s => Held s.1) step_honest events (.init, []) .fresh h

/-- `*1\r\n$3`, `\r\nab`, and the rest of it with the start of another command. -/
theorem lengths_honest_three :
    Each receiveStep Honest (.init, [])
      [([42, 49, CR, LF, 36, 51], [7]), ([CR, LF, 97, 98], []), ([99, CR, LF, 42], [])] :=
  lengths_honest _ ⟨by decide, by decide, by decide, trivial⟩

/-! ## A length out of range -/

/-- A length whose size with the line end is negative, or no int32, is a size no buffer has. -/
theorem readSize_unfit {b : Int} (h : -2 ^ 31 ≤ b ∧ b < 2 ^ 31) (hb : b ≤ -3 ∨ 2 ^ 31 ≤ b + 2) :
    2 ^ 32 ≤ MultibulkParser.readSize b := by
  unfold MultibulkParser.readSize
  rcases hb with hb | hb
  · rw [int32_of_range (by omega) (by omega), sizeT]
    omega
  · rw [int32_wrap (by omega) (by omega), sizeT]
    omega

/-- Once it has been read, nothing completes the command. -/
theorem unfit_forever {k i b : Int} (hi : 0 ≤ i) (hk : i < k) (h : -2 ^ 31 ≤ b ∧ b < 2 ^ 31)
    (hb : b ≤ -3 ∨ 2 ^ 31 ≤ b + 2) (cs : List Bytes) :
    ∀ {w : Bytes} {cmd : Cmd}, ¬ Completes ⟨.multibulk, ⟨k, i, b⟩, w, 0⟩ cmd cs := by
  have hbig := readSize_unfit h hb
  have hb0 : b ≠ 0 := by omega
  obtain ⟨n, hn⟩ : ∃ n : Nat, k - i = (n + 1 : Nat) := ⟨(k - i - 1).toNat, by omega⟩
  have hcall {w : Bytes} (hlen : w.length < 2 ^ 32) (beyond : Bytes) (cmd : Cmd) :
      CmdParser.parseRequest beyond ⟨.multibulk, ⟨k, i, b⟩, w, 0⟩ cmd =
        (.tryAgain, ⟨.multibulk, ⟨k, i, b⟩, w, 0⟩, cmd) := by
    by_cases h0 : w = []
    · rw [h0, CmdParser.parseRequest_nil]
    · have hl : MultibulkParser.readLen beyond b (.after [] w) none = (.ok, b, none, .after [] w) := by
        rw [MultibulkParser.readLen, if_neg hb0]
      have hloop : MultibulkParser.handleRequest beyond ⟨k, i, b⟩ cmd (.after [] w) =
          (.tryAgain, ⟨k, i, b⟩, cmd, .after [] w) := by
        rw [handleRequest_rounds beyond (by omega) hn]
        exact MultibulkParser.requestLoop_wait beyond n hl (BufferReader.read_short _ _ (by omega))
      exact CmdParser.parseRequest_multibulk _ _ (Or.inl rfl) h0 (by decide) rfl hloop
  induction cs with
  | nil => intro w cmd hc; cases hc
  | cons c cs ih =>
    intro w cmd hc
    cases hc with
    | last hlen hok =>
      have herr := hok []
      rw [CmdParser.feed, hcall hlen] at herr
      cases herr
    | more hlen hwait hrest =>
      have hkeep := hwait []
      rw [CmdParser.feed, hcall hlen] at hkeep
      obtain ⟨-, rfl, rfl⟩ := hkeep
      exact ih hrest

/-- `*1\r\n$-3\r\n`. -/
theorem negative_length_waits :
    ¬ ∀ events : List (Bytes × Bytes),
      Each receiveStep (fun s e => (s.1.inputb ++ e.1).length < 2 ^ 31) (.init, []) events →
      Each receiveStep Honest (.init, []) events := by
  intro h
  have hrun := h [([42, 49, CR, LF, 36, 45, 51, CR, LF], [])] ⟨by decide, trivial⟩
  have hwait : CmdParser.parseRequest [] (CmdParser.init.feed [42, 49, CR, LF, 36, 45, 51, CR, LF]) [] =
      (.tryAgain, ⟨.multibulk, ⟨1, 0, -3⟩, [], 0⟩, []) := by decide
  have hcompletes := hrun.1.1
  rw [hwait] at hcompletes
  obtain ⟨cs, hcs⟩ := hcompletes rfl rfl
  exact unfit_forever (by decide) (by decide) (by decide) (Or.inl (by decide)) cs hcs

end RedisProxy.Wire
