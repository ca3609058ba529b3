/-
  RedisProxy.Wire.Incomplete — a command that is still arriving.

  The bytes come in chunks of any size, and after each one `ParseRequest` is called on
  the same command. Short of the end the answer should be `TryAgain`. The reader tells
  two ends of input apart, though: a delimiter that is not there yet (`NotFound`, which
  the call sites turn into `TryAgain`) and nothing there at all (`OutOfBound`, which
  goes through). So a chunk that ends exactly where a round of the loop would begin
  (`Sent.Edge`: at the start of an argument, or behind a separator space) is answered
  with an error, and the session closes the client.

  A chunk that ends inside an empty argument others follow (`Sent.Odd`) is answered with
  `TryAgain`, but the position is lost (`Wire.Resume`): the answers to later chunks then
  depend on where those end and on the memory behind the input.

  Proved:
  - `calls_iff`: over any chunks, from any position: every answer is `TryAgain` exactly if
    no chunk ends at an edge.
  - `incomplete_iff`: the same for both kinds of command, from a reset parser.
-/

import RedisProxy.Wire.Inline

namespace RedisProxy.Wire

open Lib.Decimal Lib.Pieces

/-! ## Calls -/

/-- The answers of one call after each chunk. With a chunk comes the memory behind the
    input at that call. -/
def callErrors : CmdParser → Cmd → List (Bytes × Bytes) → List Error
  | _, _, [] => []
  | P, cmd, (c, beyond) :: cs =>
    let res := CmdParser.parseRequest beyond (P.feed c) cmd
    res.1 :: callErrors res.2.1 res.2.2 cs

/-- Every call finds fewer than 2^31 bytes of input. -/
def Room : CmdParser → Cmd → List (Bytes × Bytes) → Prop
  | _, _, [] => True
  | P, cmd, (c, beyond) :: cs =>
    (P.inputb ++ c).length < 2 ^ 31 ∧
      let res := CmdParser.parseRequest beyond (P.feed c) cmd
      Room res.2.1 res.2.2 cs

def delivered (cs : List (Bytes × Bytes)) : Bytes := cs.flatMap (·.1)

/-- All that has been delivered when each of the calls is made. -/
def prefixes : Bytes → List (Bytes × Bytes) → List Bytes
  | _, [] => []
  | p, (c, _) :: cs => (p ++ c) :: prefixes (p ++ c) cs

/-- One call moves a position `pos` along `enc`, and meets `edge` with `OutOfBound`. -/
structure Waits (enc : Bytes) (pos : Bytes → CmdParser → Cmd → Prop) (edge odd : Bytes → Prop) : Prop where
  call : ∀ (beyond p c : Bytes) (P : CmdParser) (cmd : Cmd), pos p P cmd → ¬ odd p →
    (P.inputb ++ c).length < 2 ^ 31 →
    Proper (p ++ c) enc → (c = [] → ¬ edge p) →
      Stops pos edge (p ++ c) (CmdParser.parseRequest beyond (P.feed c) cmd)

section Calls

variable {enc : Bytes} {pos : Bytes → CmdParser → Cmd → Prop} {edge odd : Bytes → Prop}

/-- By induction on the chunks: until one ends at an edge the position moves along. -/
theorem calls_iff (hw : Waits enc pos edge odd) (cs : List (Bytes × Bytes)) :
    ∀ (p : Bytes) (P : CmdParser) (cmd : Cmd),
    pos p P cmd → ¬ edge p → ¬ odd p → Proper (p ++ delivered cs) enc → Room P cmd cs →
    (∀ q ∈ (prefixes p cs).dropLast, ¬ odd q) →
    ((∀ e ∈ callErrors P cmd cs, e = .tryAgain) ↔ ∀ q ∈ prefixes p cs, ¬ edge q) := by
  induction cs with
  | nil =>
    intro p P cmd _ _ _ _ _ _
    exact iff_of_true (fun e he => absurd he (List.not_mem_nil)) fun q hq => absurd hq (List.not_mem_nil)
  | cons x cs ih =>
    obtain ⟨c, beyond⟩ := x
    intro p P cmd hpos hedge hodd hp hroom hodds
    have hp' : Proper ((p ++ c) ++ delivered cs) enc := by
      rwa [delivered, List.flatMap_cons, ← List.append_assoc] at hp
    have hst := hw.call beyond p c P cmd hpos hodd hroom.1 (proper_of_append hp') fun _ => hedge
    simp only [callErrors, prefixes, List.forall_mem_cons]
    by_cases he : edge (p ++ c)
    · have herr := hst.boundary.mpr he
      refine iff_of_false (fun h => ?_) fun h => h.1 he
      rw [herr] at h
      cases h.1
    · have herr := hst.err.resolve_right fun e => he (hst.boundary.mp e)
      rw [herr]
      cases cs with
      | nil =>
        exact iff_of_true ⟨rfl, fun e h => absurd h (List.not_mem_nil)⟩
          ⟨he, fun q h => absurd h (List.not_mem_nil)⟩
      | cons y cs =>
        have hodds' : ¬ odd (p ++ c) ∧ ∀ q ∈ (prefixes (p ++ c) (y :: cs)).dropLast, ¬ odd q :=
          List.forall_mem_cons.mp hodds
        have := ih (p ++ c) _ _ hst.pos he hodds'.1 hp' hroom.2 hodds'.2
        exact ⟨fun h => ⟨he, this.mp h.2⟩, fun h => ⟨rfl, this.mpr h.2⟩⟩

end Calls

/-! ## Both kinds of command -/

/-- A command as a client sends it. -/
inductive Sent where
  | multibulk (argv : Cmd)
  | inline (ts : List Bytes) (last : Bytes)
  deriving DecidableEq, Repr

namespace Sent

def encode : Sent → Bytes
  | multibulk argv => argv.formatRESP2 []
  | inline ts last => encodeInline ts last

def Valid : Sent → Prop
  | multibulk argv => argv ≠ [] ∧ Sizes argv
  | inline ts last => (∀ t ∈ ts, IsToken t) ∧ IsToken last ∧ (encodeInline ts last).head? ≠ some 42

/-- A round of the loop begins behind `p`. -/
def Edge : Sent → Bytes → Prop
  | multibulk argv, p => AtBoundary argv p
  | inline _ _, p => AfterSpace p

/-- `p` ends inside an empty argument that is not the last. -/
def Odd : Sent → Bytes → Prop
  | multibulk argv, p => ∃ todo, InEmpty argv p todo ∧ todo ≠ []
  | inline _ _, _ => False

def Pos : Sent → Bytes → CmdParser → Cmd → Prop
  | multibulk argv => Suspended argv
  | inline ts _ => Typed ts

theorem waits {s : Sent} (h : s.Valid) : Waits s.encode s.Pos s.Edge s.Odd := by
  cases s with
  | multibulk argv =>
    refine ⟨fun beyond p c P cmd hpos hodd hroom hp hc => ?_⟩
    have hE : ∀ todo, InEmpty argv p todo → todo = [] := fun todo hin => by
      by_contra hne
      exact hodd ⟨todo, hin, hne⟩
    have hp' : Proper (p ++ c) (Wire.encode argv) := by
      have he : Wire.encode argv = argv.formatRESP2 [] := by rw [formatRESP2_eq, List.nil_append]
      rw [he]; exact hp
    exact parseRequest_part hpos hE h.2 hroom hp' hc
  | inline ts last =>
    exact ⟨fun beyond p c P cmd hpos _ hroom hp hc => inline_part hpos h.1 h.2.1 h.2.2 hroom hp hc⟩

theorem start {s : Sent} : s.Pos [] .init [] ∧ ¬ s.Edge [] ∧ ¬ s.Odd [] := by
  cases s with
  | multibulk argv =>
    have h0 : ¬ ∃ q : Bytes, [] = countLine argv ++ q := by
      rintro ⟨q, h⟩
      exact countLine_ne_nil argv (List.append_eq_nil_iff.mp h.symm).1
    refine ⟨suspended_init argv, ?_, ?_⟩
    · rintro ⟨_, _, _, _, h⟩; exact h0 ⟨_, h⟩
    · rintro ⟨_, ⟨_, _, _, _, h⟩, _⟩; exact h0 ⟨_, h⟩
  | inline ts last =>
    refine ⟨typed_init ts, ?_, fun h => h⟩
    intro h
    cases h

end Sent

/-- A proper prefix of a command, in any chunks none of which but the last ends inside an
    empty argument that others follow: all answers are `TryAgain` exactly if no chunk ends
    at an edge. -/
theorem incomplete_iff (s : Sent) (hv : s.Valid) (chunks : List (Bytes × Bytes))
    (hp : Proper (delivered chunks) s.encode)
    (hroom : Room .init [] chunks) (hodd : ∀ q ∈ (prefixes [] chunks).dropLast, ¬ s.Odd q) :
    (∀ e ∈ callErrors .init [] chunks, e = .tryAgain) ↔ ∀ q ∈ prefixes [] chunks, ¬ s.Edge q :=
  calls_iff (Sent.waits hv) chunks [] .init [] Sent.start.1 Sent.start.2.1 Sent.start.2.2 hp hroom hodd

/-- `*1\r\n`, and nothing yet of the argument. -/
theorem incomplete_ping :
    ¬ ∀ (s : Sent) (chunks : List (Bytes × Bytes)), s.Valid → Proper (delivered chunks) s.encode →
      ∀ e ∈ callErrors .init [] chunks, e = .tryAgain := by
  intro h
  have hv : (Sent.multibulk [[80, 73, 78, 71]]).Valid := by
    refine ⟨by decide, ⟨by decide, ?_⟩⟩
    decide
  have hp : Proper (delivered [([42, 49, CR, LF], [])]) (Sent.multibulk [[80, 73, 78, 71]]).encode :=
    ⟨encodeArg [80, 73, 78, 71], by decide, by decide⟩
  have herr : Error.outOfBound ∈ callErrors .init [] [([42, 49, CR, LF], [])] := by decide
  cases h _ _ hv hp _ herr

/-- `PI`, `NG` inline, without the line end: both answers are `TryAgain`. -/
theorem incomplete_iff_inline :
    (Sent.inline [] [80, 73, 78, 71]).Valid ∧
    Proper (delivered [([80, 73], []), ([78, 71], [])]) (Sent.inline [] [80, 73, 78, 71]).encode ∧
    Room .init [] [([80, 73], []), ([78, 71], [])] ∧
    (∀ q ∈ (prefixes [] [([80, 73], []), ([78, 71], [])]).dropLast,
      ¬ (Sent.inline [] [80, 73, 78, 71]).Odd q) ∧
    ((∀ e ∈ callErrors .init [] [([80, 73], []), ([78, 71], [])], e = .tryAgain) ↔
      ∀ q ∈ prefixes [] [([80, 73], []), ([78, 71], [])], ¬ (Sent.inline [] [80, 73, 78, 71]).Edge q) := by
  have hv : (Sent.inline [] [80, 73, 78, 71]).Valid :=
    ⟨fun t h => absurd h List.not_mem_nil, ⟨by decide, by decide, by decide⟩, by decide⟩
  have hp : Proper (delivered [([80, 73], []), ([78, 71], [])]) (Sent.inline [] [80, 73, 78, 71]).encode :=
    ⟨crlf, by decide, by decide⟩
  have hroom : Room .init [] [([80, 73], []), ([78, 71], [])] := ⟨by decide, by decide, trivial⟩
  exact ⟨hv, hp, hroom, fun _ _ h => h, incomplete_iff _ hv _ hp hroom fun _ _ h => h⟩

end RedisProxy.Wire
