/-
  RedisProxy.Client.Forward — a read whose commands are all accepted (session.cpp).

  The client sends commands one behind the other; the reads end where they may
  (`Wire.Cut`), and no push of the read is refused (`Accepts`).

  Proved: `onReadable_forwards`, the read pushes the commands it completes, in order, and
  leaves the session where its last byte is; the connection is as it was.
-/

import RedisProxy.Client.Backpressure
import RedisProxy.Wire.Cuts

namespace RedisProxy.Client

open Lib Lib.Runs Lib.Decimal Wire Net

namespace Peer

variable {U : Type} (push : U → Cmd → Error × U)

/-- The upstream after the commands have been pushed. -/
def pushed (u : U) (cmds : List Cmd) : U := cmds.foldl (fun u cmd => (push u cmd).2) u

/-- None of the pushes is refused. -/
def Accepts (u : U) (cmds : List Cmd) : Prop :=
  Each (fun u cmd => (push u cmd).2) (fun u cmd => (push u cmd).1 = .ok) u cmds

/-- The read has pushed `cmds` and stands at `q`, with `rest` to come. -/
structure Forwarded (c : Peer U) (cmds rest : List Cmd) (q : Bytes) (c' : Peer U) : Prop where
  session : c'.session = { c.session with parser := c'.session.parser }
  sits : Sits rest q c'.session.parser
  conn : c'.conn = c.conn
  upstream : c'.upstream = pushed push c.upstream cmds
  calls : accepted c'.calls = accepted c.calls ++ cmds

/-- At the loop's head, `done` of the commands pushed. -/
def Forwarding (c : Peer U) (cmds rest : List Cmd) (q : Bytes) (c' : Peer U) : Prop :=
  ∃ done todo p P t, cmds = done ++ todo ∧ c'.session = { c.session with parser := P.feed t } ∧
    Sits (todo ++ rest) p P ∧ p ++ t = todo.flatMap encode ++ q ∧ c'.conn = c.conn ∧
      c'.upstream = pushed push c.upstream done ∧ accepted c'.calls = accepted c.calls ++ done

variable {push} {c : Peer U} {cmds rest : List Cmd} {p q : Bytes} {beyond : Bytes}

theorem pushed_snoc (u : U) (cmds : List Cmd) (cmd : Cmd) :
    pushed push u (cmds ++ [cmd]) = (push (pushed push u cmds) cmd).2 := List.foldl_concat ..

theorem accepts_next {u : U} {done todo : List Cmd} {cmd : Cmd} (h : Accepts push u (done ++ cmd :: todo)) :
    (push (pushed push u done) cmd).1 = .ok := ((each_append done (cmd :: todo) u).mp h).2.1

variable (beyond) in
/-- What a round finds: the end of the read, or the next command whole. -/
theorem forwarding_parse (hcmd : c.session.currentCmd = []) (hcut : Cut rest q)
    (hsize : ∀ argv ∈ cmds ++ rest, (encode argv).length < 2 ^ 31) {c' : Peer U} (h : Forwarding push c cmds rest q c')
    (h0 : c'.session.parser.inputb ≠ []) :
    ((c'.parseRequest beyond).1 = .tryAgain ∧ Forwarded push c cmds rest q (c'.parseRequest beyond).2) ∨
    ∃ done argv todo, cmds = done ++ argv :: todo ∧ (c'.parseRequest beyond).1 = .ok ∧
      (c'.parseRequest beyond).2.session =
        { c.session with parser := returned argv (todo.flatMap encode ++ q), currentCmd := argv } ∧
      (c'.parseRequest beyond).2.conn = c.conn ∧ (c'.parseRequest beyond).2.upstream = pushed push c.upstream done ∧
      accepted (c'.parseRequest beyond).2.calls = accepted c.calls ++ done := by
  obtain ⟨done, todo, p, P, t, rfl, hs, hsits, hbytes, hconn, hup, hcalls⟩ := h
  rw [hs] at h0
  have hsize' : ∀ argv ∈ todo ++ rest, (encode argv).length < 2 ^ 31 := fun argv ha =>
    hsize argv (by rw [List.append_assoc]; exact List.mem_append_right _ ha)
  have hparse := sits_parse beyond hsits hcut hbytes h0 hsize'
  rw [← hcmd] at hparse
  simp only [parseRequest, hs]
  rcases hparse with ⟨rfl, P', he, hsits'⟩ | ⟨argv, todo', rfl, he⟩
  · rw [he]
    refine Or.inl ⟨rfl, rfl, hsits', hconn, ?_, ?_⟩
    · rw [List.append_nil]; exact hup
    · rw [accepted_parse, List.append_nil]; exact hcalls
  · rw [he]
    exact Or.inr ⟨done, argv, todo', rfl, rfl, rfl, hconn, hup, by rw [accepted_parse]; exact hcalls⟩

theorem forwards_round (hcmd : c.session.currentCmd = []) (hcut : Cut rest q)
    (hsize : ∀ argv ∈ cmds ++ rest, (encode argv).length < 2 ^ 31) (hacc : Accepts push c.upstream cmds) :
    Round push beyond (Forwarding push c cmds rest q) (fun _ => Forwarded push c cmds rest q) where
  drained c' h h0 := by
    obtain ⟨done, todo, p, P, t, rfl, hs, hsits, hbytes, hconn, hup, hcalls⟩ := h
    have h0 : P.inputb ++ t = [] := by rw [hs] at h0; exact h0
    obtain ⟨rfl, rfl, rfl⟩ := sits_drained hsits hbytes h0
    have hfeed : P.feed [] = P := by simp [CmdParser.feed]
    rw [hfeed] at hs
    refine ⟨by rw [hs], by rw [hs]; exact hsits, hconn, ?_, ?_⟩
    · rw [List.append_nil]; exact hup
    · rw [List.append_nil]; exact hcalls
  waits c' h h0 he := by
    rcases forwarding_parse beyond hcmd hcut hsize h h0 with ⟨-, hend⟩ | ⟨_, _, _, -, hok, -⟩
    · exact hend
    · rw [hok] at he; cases he
  fails c' e h h0 he hok htry := by
    rcases forwarding_parse beyond hcmd hcut hsize h h0 with ⟨he', -⟩ | ⟨_, _, _, -, hok', -⟩
    · exact absurd (he.symm.trans he') htry
    · exact absurd (he.symm.trans hok') hok
  refuses c' e h h0 he hq hne := by
    rcases forwarding_parse beyond hcmd hcut hsize h h0 with ⟨he', -⟩ | ⟨done, argv, todo, rfl, -, hs, -, hup, -⟩
    · rw [he] at he'; cases he'
    · simp only [pushRequest, hs, hup] at hq
      exact absurd (hq.symm.trans (accepts_next hacc)) hne
  accepts c' h h0 he hq := by
    rcases forwarding_parse beyond hcmd hcut hsize h h0 with
      ⟨he', -⟩ | ⟨done, argv, todo, rfl, -, hs, hconn, hup, hcalls⟩
    · rw [he] at he'; cases he'
    · refine ⟨done ++ [argv], todo, [], .init, todo.flatMap encode ++ q, by simp, ?_, Or.inl ⟨rfl, rfl⟩, rfl, hconn,
        ?_, ?_⟩
      · simp only [resetCmd, resetParser, pushRequest, hs, returned, CmdParser.reset, CmdParser.feed, CmdParser.init,
          hcmd]
        rfl
      · simp only [resetCmd, resetParser, pushRequest, hs, hup, pushed_snoc]
      · simp only [resetCmd, resetParser, pushRequest, hs, hup, accepts_next hacc]
        rw [accepted_reset, accepted_ok, hcalls, List.append_assoc]

/-- A read whose commands are all accepted: it pushes those it completes. -/
theorem onReadable_forwards {chunk : Bytes} (hcmd : c.session.currentCmd = [])
    (hsits : Sits (cmds ++ rest) p c.session.parser) (hcut : Cut rest q)
    (hbytes : p ++ chunk = cmds.flatMap encode ++ q)
    (hsize : ∀ argv ∈ cmds ++ rest, (encode argv).length < 2 ^ 31) (hacc : Accepts push c.upstream cmds)
    (hrest : c.session.parser.AtRest) : Forwarded push c cmds rest q (c.onReadable push (chunk, beyond)) := by
  refine onClientRead_rule (forwards_round hcmd hcut hsize hacc) (hrest.feed chunk) (fun _ => ?_)
    (fun _ h0 => absurd hcmd h0) (fun h0 => absurd hcmd h0)
  exact ⟨[], cmds, p, c.session.parser, chunk, rfl, rfl, hsits, hbytes, rfl, rfl, (List.append_nil _).symm⟩

end Peer

end RedisProxy.Client
