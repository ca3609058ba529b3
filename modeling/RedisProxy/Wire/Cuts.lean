/-
  RedisProxy.Wire.Cuts — a stream of commands, and where a read may end in it.

  The encodings of commands one behind the other can be told apart (`delimited_encode`).
  A session goes on from the end of a read as if there had been none when the read ends
  with a command, or early in one: before the line end behind the command's name and not
  right behind its count line (`Early`). There the parser has no argument yet, so that
  `currentCmd_` is empty, and no length of 0 and no `OutOfBound` confuses it.

  Proved: `early_part` and `early_whole`, what a call does from such a place to the next
  one, or to the end of the command; `sits_parse`, a call on bytes that end at a `Cut`.
-/

import RedisProxy.Lib.Codes
import RedisProxy.Wire.Resume

namespace RedisProxy.Wire

open Lib.Decimal Lib.Pieces Lib.Codes

/-! ## The stream -/

theorem decimal_injective : Function.Injective decimal := fun a b h => by
  rw [← digitsVal_decimal a, h, digitsVal_decimal]

theorem delimited_numLine (mark : Byte) : Delimited fun n : Nat => numLine mark n := by
  intro a b r s h
  simp only [numLine, crlf, decimalInt_natCast, List.cons_append, List.append_assoc, List.cons.injEq, true_and] at h
  have hcr : ∀ n, CR ∉ decimal n := fun n hm => by have := decimal_digits n CR hm; cases this
  obtain ⟨hdec, hrest⟩ := split_mark (r := LF :: r) (s := LF :: s) (decimal a) (hcr a) (hcr b) h
  exact ⟨decimal_injective hdec, (List.cons.inj hrest).2⟩

theorem delimited_encodeArg : Delimited encodeArg :=
  (delimited_numLine 36).keyed (fun a : Bytes => a.length) (fun a => a ++ crlf) fun a b r s hlen h => by
    simp only [List.append_assoc] at h
    obtain ⟨rfl, hrest⟩ := List.append_inj h hlen
    exact ⟨rfl, List.append_cancel_left hrest⟩

theorem delimited_encode : Delimited encode :=
  (delimited_numLine 42).keyed (fun argv : Cmd => argv.length) (fun argv => argv.flatMap encodeArg)
    fun a b r s hlen h => delimited_encodeArg.list a b r s hlen h

/-! ## Where a read may end -/

/-- Inside the first argument or before it, which is not empty, and not right behind the count line. -/
def Early (argv : Cmd) (p : Bytes) : Prop :=
  ∃ a as, argv = a :: as ∧ a ≠ [] ∧ Proper p (countLine argv ++ encodeArg a) ∧ p ≠ countLine argv

variable {argv : Cmd} {p q t : Bytes} {P : CmdParser}

theorem early_nil (h : ∃ a as, argv = a :: as ∧ a ≠ []) : Early argv [] := by
  obtain ⟨a, as, rfl, ha⟩ := h
  exact ⟨a, as, rfl, ha, proper_nil (by simp [countLine_ne_nil]), fun e => countLine_ne_nil _ e.symm⟩

theorem Early.proper (h : Early argv p) : Proper p (encode argv) := by
  obtain ⟨a, as, rfl, -, hp, -⟩ := h
  rw [encode, List.flatMap_cons, ← List.append_assoc]
  exact hp.append_right _

/-- No argument lies before an early place. -/
theorem Early.first {done rest : Cmd} {w : Bytes} (h : Early argv p) (hd : argv = done ++ rest)
    (hp : p = countLine argv ++ (done.flatMap encodeArg ++ w)) : done = [] := by
  obtain ⟨a, as, rfl, -, hproper, -⟩ := h
  cases done with
  | nil => rfl
  | cons d done =>
    obtain ⟨rfl, -⟩ := List.cons.inj hd
    have := hproper.length_lt
    rw [hp] at this
    simp only [List.flatMap_cons, List.length_append] at this
    omega

theorem Early.not_inEmpty (h : Early argv p) (todo : Cmd) : ¬ InEmpty argv p todo := by
  rintro ⟨done, w, hd, -, hp⟩
  obtain rfl := h.first hd hp
  obtain ⟨a, as, rfl, ha, -, -⟩ := h
  exact ha (List.cons.inj hd).1

theorem Early.not_boundary (h : Early argv p) : ¬ AtBoundary argv p := by
  rintro ⟨done, a, todo, hd, hp⟩
  obtain rfl := h.first (w := []) hd (by rw [hp, List.append_nil])
  obtain ⟨_, _, -, -, -, hne⟩ := h
  exact hne (by rw [hp]; simp)

theorem Early.no_argument {cmd : Cmd} (h : Early argv p) (hs : Suspended argv p P cmd) : cmd = [] := by
  cases hs with
  | count _ => rfl
  | header hd _ => exact h.first hd rfl
  | payload hd _ => exact h.first hd rfl

/-- From an early place to another. -/
theorem early_part (beyond : Bytes) (h : Early argv p) (hs : Suspended argv p P []) (h' : Early argv (p ++ t))
    (hsize : (encode argv).length < 2 ^ 31) :
    ∃ P', CmdParser.parseRequest beyond (P.feed t) [] = (.tryAgain, P', []) ∧ Suspended argv (p ++ t) P' [] := by
  have hlt := h'.proper.length_lt
  have hunread := unread_le hs
  have hroom : (P.inputb ++ t).length < 2 ^ 31 := by
    rw [List.length_append] at hlt ⊢
    omega
  have hstop : Stops (Suspended argv) (AtBoundary argv) (p ++ t) (CmdParser.parseRequest beyond (P.feed t) []) :=
    parseRequest_part hs (fun todo he => absurd he (h.not_inEmpty todo)) (sizes_of_lt (by omega)) hroom h'.proper
      fun _ => h.not_boundary
  have herr := hstop.err.resolve_right fun e => h'.not_boundary (hstop.boundary.mp e)
  have hcmd := h'.no_argument hstop.pos
  have hpos := hstop.pos
  rw [hcmd] at hpos
  exact ⟨_, Prod.ext herr (Prod.ext rfl hcmd), hpos⟩

/-- From an early place to the end of the command. -/
theorem early_whole (beyond : Bytes) (h : Early argv p) (hs : Suspended argv p P []) (ht : p ++ t = encode argv)
    (hsize : (encode argv).length < 2 ^ 31) (rest : Bytes) :
    CmdParser.parseRequest beyond (P.feed (t ++ rest)) [] = (.ok, returned argv rest, argv) := by
  have hunread := unread_le hs
  refine parseRequest_whole beyond t rest hs h.not_inEmpty ?_ ht
  have hlen := congrArg List.length ht
  rw [List.length_append] at hlen ⊢
  omega

/-- Where the parser stands when `cmds` are still to come, `p` of them delivered. -/
def Sits (cmds : List Cmd) (p : Bytes) (P : CmdParser) : Prop :=
  (p = [] ∧ P = .init) ∨ ∃ argv todo, cmds = argv :: todo ∧ Early argv p ∧ Suspended argv p P []

/-- A read may end here. -/
def Cut (cmds : List Cmd) (p : Bytes) : Prop := p = [] ∨ ∃ argv todo, cmds = argv :: todo ∧ Early argv p

variable {cmds todo rest : List Cmd}

/-- An unfinished command is not all there. -/
theorem sits_lt (h : Sits (argv :: cmds) p P) : p.length < (encode argv).length := by
  rcases h with ⟨rfl, -⟩ | ⟨_, _, hc, hearly, -⟩
  · simp [encode, countLine, numLine]
  · obtain ⟨rfl, rfl⟩ := List.cons.inj hc
    exact hearly.proper.length_lt

theorem sits_short {w : Bytes} (h : Sits (argv :: cmds) p P) : p ≠ encode argv ++ w := by
  intro e
  have := sits_lt h
  rw [e, List.length_append] at this
  omega

/-- One call, on bytes that end at a cut: the next command is not complete, or it is returned. -/
theorem sits_parse (beyond : Bytes) (h : Sits (todo ++ rest) p P) (hcut : Cut rest q)
    (hbytes : p ++ t = todo.flatMap encode ++ q) (h0 : P.inputb ++ t ≠ [])
    (hsize : ∀ argv ∈ todo ++ rest, (encode argv).length < 2 ^ 31) :
    (todo = [] ∧ ∃ P', CmdParser.parseRequest beyond (P.feed t) [] = (.tryAgain, P', []) ∧ Sits rest q P') ∨
      ∃ argv todo', todo = argv :: todo' ∧
        CmdParser.parseRequest beyond (P.feed t) [] = (.ok, returned argv (todo'.flatMap encode ++ q), argv) := by
  cases todo with
  | nil =>
    have hq : p ++ t = q := hbytes
    refine Or.inl ⟨rfl, ?_⟩
    -- the command that `q` is early in is the one the parser sits in
    have hplace : ∀ {argv more}, rest = argv :: more → Early argv q → Early argv p ∧ Suspended argv p P [] := by
      intro argv more hrest hearly
      rcases h with ⟨rfl, rfl⟩ | ⟨argv', more', hc, hearly', hs⟩
      · obtain ⟨a, as, hargv, ha, -⟩ := hearly
        exact ⟨early_nil ⟨a, as, hargv, ha⟩, suspended_init argv⟩
      · obtain ⟨rfl, -⟩ := List.cons.inj (hrest.symm.trans hc)
        exact ⟨hearly', hs⟩
    rcases hcut with h0' | ⟨argv, more, hrest, hearly⟩
    · obtain ⟨rfl, rfl⟩ := List.append_eq_nil_iff.mp (hq.trans h0')
      exfalso
      rcases h with ⟨-, rfl⟩ | ⟨_, _, -, -, hs⟩
      · exact h0 rfl
      · have := unread_le hs
        exact h0 (by rw [List.append_nil]; exact List.eq_nil_of_length_eq_zero (by simpa using this))
    · obtain ⟨hearlyp, hs⟩ := hplace hrest hearly
      rw [← hq] at hearly ⊢
      obtain ⟨P', hparse, hs'⟩ := early_part beyond hearlyp hs hearly
        (hsize argv (by rw [hrest]; exact List.mem_cons_self))
      exact ⟨P', hparse, Or.inr ⟨argv, more, hrest, hearly, hs'⟩⟩
  | cons argv todo' =>
    refine Or.inr ⟨argv, todo', rfl, ?_⟩
    have hargv : (encode argv).length < 2 ^ 31 := hsize argv List.mem_cons_self
    rw [List.flatMap_cons, List.append_assoc] at hbytes
    rcases h with ⟨rfl, rfl⟩ | ⟨argv', more, hc, hearly, hs⟩
    · obtain rfl : t = encode argv ++ (todo'.flatMap encode ++ q) := hbytes
      exact parseRequest_encode hargv beyond _
    · obtain ⟨rfl, -⟩ := List.cons.inj hc
      obtain ⟨u, hu⟩ := hearly.proper.isPrefix
      rw [← hu, List.append_assoc, List.append_cancel_left_eq] at hbytes
      rw [hbytes]
      exact early_whole beyond hearly hs hu hargv _

/-- Nothing to parse: the read ends where it began. -/
theorem sits_drained (h : Sits (todo ++ rest) p P) (hbytes : p ++ t = todo.flatMap encode ++ q)
    (h0 : P.inputb ++ t = []) : todo = [] ∧ t = [] ∧ p = q := by
  obtain ⟨-, rfl⟩ := List.append_eq_nil_iff.mp h0
  rw [List.append_nil] at hbytes
  cases todo with
  | nil => exact ⟨rfl, rfl, hbytes⟩
  | cons argv todo' =>
    rw [List.flatMap_cons, List.append_assoc] at hbytes
    exact absurd hbytes (sits_short h)

end RedisProxy.Wire
