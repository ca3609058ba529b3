/-
  RedisProxy.System.Loops — the two processing loops, whatever the allocator, the bytes and
  the parser (session.cpp, upstream.cpp).

  `ClientRead` is what the loop of `Session::OnClientRead` works on, `ServerRead` that of
  `Upstream::OnServerRead`, each a pass over the heap. `PushRequest` and `OnServerWrite` are any
  functions: they may allocate and fail, take or refuse as they like, and the bytes behind the
  input may differ from pass to pass. What comes behind a loop in its function is not here.

  `ParseRequest` returns `OK` without taking a byte when counters are left over, and
  `ParseResponse` also when memory runs out. The first clears the counters, for good; the
  second costs an entry of the queue.

  Proved: `loops_terminate`, both loops and those inside the calls leave, after how many passes.
-/

import RedisProxy.Mem.Progress
import RedisProxy.Server.Upstream

namespace RedisProxy.System

open Lib.Loops Lib.Decimal Wire Mem Server

/-- Where a loop leaves. -/
inductive Leave where
  | drained
  | waits
  | failed (e : Error)
  | refused (e : Error)
  deriving DecidableEq, Repr

/-! ## Session::OnClientRead -/

/-- `U` is whatever `PushRequest` works on. -/
structure ClientRead (U : Type) where
  heap : Heap
  parser : Mem.CmdParser
  currentCmd : Mem.Cmd
  upstream : U

namespace ClientRead

variable {U : Type} (push : Heap → U → Mem.Cmd → Error × Heap × U) (far : ClientRead U → Bytes)

def pass (s : ClientRead U) : ClientRead U ⊕ (Leave × ClientRead U) :=
  if s.parser.inputb.used = 0 then .inr (.drained, s)
  else
    match s.parser.parseRequest (far s) s.heap s.currentCmd with
    | (.ok, h, p, cmd) =>
      match push h s.upstream cmd with
      | (.ok, h, u) => .inl ⟨(cmd.reset h).1, p.reset, (cmd.reset h).2, u⟩
      | (e, h, u) => .inr (.refused e, ⟨h, p, cmd, u⟩)
    | (.tryAgain, h, p, cmd) => .inr (.waits, ⟨h, p, cmd, s.upstream⟩)
    | (e, h, p, cmd) => .inr (.failed e, ⟨h, p, cmd, s.upstream⟩)

/-- The unread bytes, and one for what is left over. -/
def left (s : ClientRead U) : Nat := s.parser.inputb.used + if s.parser.Leftover then 1 else 0

variable {push far} {s s' : ClientRead U}

/-- A pass that goes on takes a byte, or clears what an earlier call left over. -/
structure Onward (s s' : ClientRead U) : Prop where
  placed : s'.parser.inputb.Placed
  cleared : ¬ s'.parser.Leftover
  moved : s'.parser.inputb.used < s.parser.inputb.used ∨
    s'.parser.inputb.used = s.parser.inputb.used ∧ s.parser.Leftover

theorem pass_onward (hs : s.parser.inputb.Placed) (hp : pass push far s = .inl s') : Onward s s' := by
  obtain ⟨hplaced, hle, hlt⟩ := CmdParser.parseRequest_onward hs (far s) s.heap s.currentCmd
  unfold pass at hp
  split at hp
  · cases hp
  · rcases hx : s.parser.parseRequest (far s) s.heap s.currentCmd with ⟨e, h, p, cmd⟩
    rw [hx] at hplaced hle hlt hp
    cases e with
    | ok =>
      dsimp only at hp
      rcases hu : push h s.upstream cmd with ⟨e, h', u⟩
      rw [hu] at hp
      cases e with
      | ok =>
        obtain rfl := Sum.inl.inj hp
        refine ⟨hplaced, CmdParser.leftover_reset p, ?_⟩
        by_cases hleft : s.parser.Leftover
        · rcases Nat.lt_or_eq_of_le hle with hless | heq
          · exact Or.inl hless
          · exact Or.inr ⟨heq, hleft⟩
        · exact Or.inl (hlt rfl hleft)
      | _ => cases hp
    | _ => cases hp

theorem pass_lowers : Lowers (pass push far) (fun s => s.parser.inputb.Placed) left := by
  refine ⟨fun s s' hs hp => (pass_onward hs hp).placed, fun s s' hs hp => ?_⟩
  obtain ⟨_, hcleared, hmoved⟩ := pass_onward hs hp
  unfold left
  rw [if_neg hcleared]
  rcases hmoved with hless | ⟨heq, hleft⟩
  · split <;> omega
  · rw [if_pos hleft]
    omega

/-- The loop from `s`: a pass for each byte, and one more. -/
structure Terminates (push : Heap → U → Mem.Cmd → Error × Heap × U) (far : ClientRead U → Bytes)
    (s : ClientRead U) : Prop where
  leaves : ∃ k r, loop (pass push far) (s.parser.inputb.used + 2) s = some (k, r) ∧ k ≤ s.parser.inputb.used + 1
  onward : ∀ s', pass push far s = .inl s' → Onward s s'

theorem terminates (hs : s.parser.inputb.Placed) : Terminates push far s := by
  have hbound : s.left ≤ s.parser.inputb.used + 1 := by
    unfold left
    split <;> omega
  have hl : Lowers (pass push far) _ left := pass_lowers
  obtain ⟨k, r, hk, hle⟩ := hl.leaves (s.parser.inputb.used + 2) s hs (Nat.lt_succ_of_le hbound)
  exact ⟨⟨k, r, hk, Nat.le_trans hle hbound⟩, fun s' hp => pass_onward hs hp⟩

end ClientRead

/-! ## Upstream::OnServerRead -/

/-- `V` is whatever `OnServerWrite` works on. -/
structure ServerRead (R V : Type) where
  heap : Heap
  parser : Mem.CmdParser
  respBuffer : Buffer
  cmdQueue : Recycle (ReaderPair R)
  readers : V

namespace ServerRead

variable {R V : Type} (identity : R → V → Nat) (write : Heap → V → R → Buffer → Heap × V) (far : ServerRead R V → Bytes)

/-- `OnServerWrite`, where the entry's reader still has its identity. -/
def serve (h : Heap) (v : V) (pair : ReaderPair R) (resp : Buffer) : Heap × V :=
  match pair.reader with
  | some reader => if identity reader v = pair.identity then write h v reader resp else (h, v)
  | none => (h, v)

def pass (s : ServerRead R V) : ServerRead R V ⊕ (Leave × ServerRead R V) :=
  if s.parser.inputb.used = 0 then .inr (.drained, s)
  else
    match s.parser.parseResponse (far s) s.heap s.respBuffer with
    | (.ok, h, p, resp) =>
      match s.cmdQueue.pop with
      | .ok (pair, q) =>
        let (h, v) := serve identity write h s.readers pair resp
        .inl ⟨(resp.clear h).1, p.reset, (resp.clear h).2, q, v⟩
      | .error e => .inr (.refused e, ⟨h, p, resp, s.cmdQueue, s.readers⟩)
    | (.tryAgain, h, p, resp) => .inr (.waits, ⟨h, p, resp, s.cmdQueue, s.readers⟩)
    | (e, h, p, resp) => .inr (.failed e, ⟨h, p, resp, s.cmdQueue, s.readers⟩)

variable {identity write far} {s s' : ServerRead R V}

/-- A pass that goes on pops an entry. -/
theorem pass_pops (hp : pass identity write far s = .inl s') : ∃ pair, s.cmdQueue.held = pair :: s'.cmdQueue.held := by
  unfold pass at hp
  split at hp
  · cases hp
  · rcases hx : s.parser.parseResponse (far s) s.heap s.respBuffer with ⟨e, h, p, resp⟩
    rw [hx] at hp
    cases e with
    | ok =>
      dsimp only at hp
      rcases s.cmdQueue.pop_held with ⟨_, hpop⟩ | ⟨pair, q, hpop, hheld, _⟩
      · rw [hpop] at hp
        cases hp
      · rw [hpop] at hp
        obtain rfl := Sum.inl.inj hp
        exact ⟨pair, hheld⟩
    | _ => cases hp

theorem pass_lowers : Lowers (pass identity write far) (fun _ => True) (fun s => s.cmdQueue.held.length) := by
  refine ⟨fun _ _ _ _ => trivial, fun s s' _ hp => ?_⟩
  obtain ⟨pair, hheld⟩ := pass_pops hp
  rw [hheld]
  exact Nat.lt_succ_self _

/-- The loop from `s`: a pass for each entry of the queue. -/
structure Terminates (identity : R → V → Nat) (write : Heap → V → R → Buffer → Heap × V)
    (far : ServerRead R V → Bytes) (s : ServerRead R V) : Prop where
  leaves : ∃ k r, loop (pass identity write far) (s.cmdQueue.held.length + 1) s = some (k, r) ∧
    k ≤ s.cmdQueue.held.length
  pops : ∀ s', pass identity write far s = .inl s' → ∃ pair, s.cmdQueue.held = pair :: s'.cmdQueue.held

theorem terminates (s : ServerRead R V) : Terminates identity write far s := by
  have hl : Lowers (pass identity write far) _ _ := pass_lowers
  obtain ⟨k, r, hk, hle⟩ := hl.leaves (s.cmdQueue.held.length + 1) s trivial (Nat.lt_succ_self _)
  exact ⟨⟨k, r, hk, hle⟩, fun s' hp => pass_pops hp⟩

end ServerRead

/-- Whatever the allocator, the pushes and the readers do, whatever the parsers hold and the
    queue: both loops leave, and so do the loops inside the calls. -/
theorem loops_terminate {U R V : Type} (push : Heap → U → Mem.Cmd → Error × Heap × U) (far : ClientRead U → Bytes)
    (identity : R → V → Nat) (write : Heap → V → R → Buffer → Heap × V) (far' : ServerRead R V → Bytes)
    (s : ClientRead U) (hs : s.parser.inputb.Placed) (t : ServerRead R V) :
    s.Terminates push far ∧ t.Terminates identity write far' ∧
      ∀ (behind : Bytes) (input : Buffer), CallLoops behind input :=
  ⟨ClientRead.terminates hs, ServerRead.terminates t, fun behind input => callLoops behind input⟩

/-- Three bytes behind a count that is done and a length of -2 left over, no memory, and a push
    that refuses; a status line for nobody. -/
theorem loops_terminate_leftover :
    let s : ClientRead Unit := ⟨.start fun _ => none, ⟨.multibulk, ⟨1, 1, -2⟩, ⟨some 0, 3, 0⟩, 0⟩, .empty, ()⟩
    let t : ServerRead Nat Unit := ⟨.start fun _ => none, ⟨.inline, .reset, ⟨some 0, 5, 0⟩, 0⟩, .null,
      .create 2 (by decide), ()⟩
    s.Terminates (fun h u _ => (.tryAgain, h, u)) (fun _ => []) ∧
      t.Terminates (fun reader _ => reader) (fun h v _ _ => (h, v)) (fun _ => []) ∧
      ∀ (behind : Bytes) (input : Buffer), CallLoops behind input :=
  loops_terminate _ _ _ _ _ _ ⟨by decide, by decide, by decide⟩ _

end RedisProxy.System
