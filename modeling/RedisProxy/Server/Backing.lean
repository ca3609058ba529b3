/-
  RedisProxy.Server.Backing — the upstream over the heap and over bytes.

  `Server.Intake` runs `OnServerRead` over buffers that share blocks, `Server.Routing` over
  byte strings, and `Server.Inflow` has the room in numbers (`Sized`). What a reply call
  reads behind the unread bytes is what the heap has there.

  A read without room brings nothing, and the handler runs on what there is.

  Proved: `exchange_refined`, over every run whose replies are steady and answer the commands
  accepted, the first does what the other two say, and every block it can see is counted.
-/

import RedisProxy.Lib.Simulation
import RedisProxy.Server.Inflow

namespace RedisProxy.Server

open Lib Lib.Runs Lib.Simulation Lib.Decimal Lib.Pieces Wire Net

variable {R : Type} {identity : R → Nat}

/-- The exchange, and the room that its reads find. -/
structure Sized (R : Type) where
  exchange : Exchange R
  inflow : Inflow

namespace Sized

def start (n : Nat) (h : 0 < n) (initSize minSize : Nat) : Sized R := ⟨.start n h, .start initSize minSize⟩

def step (identity : R → Nat) (x : Sized R) : Event R → Sized R
  | .push cmd reader => { x with exchange := x.exchange.step identity (.push cmd reader) }
  | .read chunk beyond =>
    ⟨x.exchange.step identity (.read chunk beyond),
      x.inflow.onReadable identity x.exchange.relay.upstream (chunk, beyond)⟩

def run (identity : R → Nat) (x : Sized R) (events : List (Event R)) : Sized R := events.foldl (step identity) x

end Sized

namespace Intake

/-- The loop and the room behind it, if each reply has its entry. -/
theorem onServerRead_view {s : Intake R} {minSize : Nat} (hk : s.replies.Kept [])
    (hin : s.parser.inputb.used + minSize + 4 < 2 ^ 32) (far : Bytes) {w : Error × Relay R}
    (hw : Relay.onServerRead identity (s.parser.inputb.behind s.heap far) s.view = w) (herr : w.1 ≠ .empty) :
    (onServerRead identity minSize far s).2.replies.Kept [] ∧ (onServerRead identity minSize far s).2.view = w.2 := by
  have hl : Looped s _ (readLoop identity far s.cmdQueue.holder.length s) := readLoop_view far _ s hk
  have hw : Relay.readLoop identity (s.parser.inputb.behind s.heap far) s.cmdQueue.holder.length s.view = w := hw
  rw [hw] at hl
  have hkept := hl.kept fun hempty => herr (hl.err.symm.trans hempty)
  have hview := hl.view
  have hused := hl.used
  unfold onServerRead
  rcases hr : readLoop identity far s.cmdQueue.holder.length s with ⟨e, t⟩
  rw [hr] at hkept hview hused
  dsimp only at hkept hview hused
  cases e with
  | ok =>
    have hafford : t.parser.inputb.Affords minSize := by
      unfold Mem.Buffer.Affords
      omega
    obtain ⟨hroom, hsame, -, -⟩ := makeRoom_spec hkept hafford
    exact ⟨hroom, hsame.trans hview⟩
  | _ => exact ⟨hkept, hview⟩

end Intake

namespace Inlet

variable (minSize : Nat)

/-- What the exchange is given. -/
def actions (x : Inlet R) : Event R → List (Event R)
  | .push cmd reader => [.push cmd reader]
  | .read chunk far =>
    let t := (x.intake.read chunk).2
    [.read chunk (t.parser.inputb.behind t.heap far)]

/-- What `Sized` has of it. -/
def sized (x : Inlet R) : Sized R := ⟨x.view, x.intake.inflow minSize⟩

/-- Fewer than 2^31 bytes are unread, and what a block is asked for it can be. -/
def Fits (x : Inlet R) : Event R → Prop
  | .push _ _ => True
  | .read chunk _ => x.intake.Small minSize chunk

structure Backed (identity : R → Nat) (reply : Nat → Reply) (x : Inlet R) : Prop where
  kept : x.intake.replies.Kept []
  stands : Exchange.Inv identity reply x.view

variable {minSize} {reply : Nat → Reply} {x : Inlet R}

theorem backed_push (hx : Backed identity reply x) (cmd : Cmd) (reader : R) :
    Backed identity reply (x.step identity minSize (.push cmd reader)) ∧
      (x.step identity minSize (.push cmd reader)).sized minSize =
        (x.sized minSize).step identity (.push cmd reader) := by
  obtain ⟨herr, hview, hreplies, hread⟩ := Intake.pushRequest_view (s := x.intake) identity cmd reader
  have hstep : (x.step identity minSize (.push cmd reader)).view = x.view.step identity (.push cmd reader) := by
    unfold step view Exchange.step
    dsimp only
    rw [hview, herr]
  refine ⟨⟨?_, ?_⟩, ?_⟩
  · show (x.intake.pushRequest identity cmd reader).2.replies.Kept []
    rw [hreplies]
    exact hx.kept
  · rw [hstep]
    exact Exchange.inv_push hx.stands cmd reader
  · have hroom : (x.intake.pushRequest identity cmd reader).2.inflow minSize = x.intake.inflow minSize := by
      show (⟨minSize, (x.intake.pushRequest identity cmd reader).2.replies.parser.inputb.capacity
        (x.intake.pushRequest identity cmd reader).2.replies.heap,
        (x.intake.pushRequest identity cmd reader).2.replies.parser.inputb.size, _⟩ : Inflow) = _
      rw [hreplies, hread]
      rfl
    show (⟨_, (x.intake.pushRequest identity cmd reader).2.inflow minSize⟩ : Sized R) = _
    rw [hstep, hroom]
    rfl

/-- What is there after `Event::Read`, whether it found room or not. -/
theorem read_fed (hk : x.intake.replies.Kept []) {chunk : Bytes} (hf : x.intake.Small minSize chunk)
    (hchunk : chunk.length ≤ x.intake.freeSize) :
    let t := (x.intake.read chunk).2
    ((x.intake.read chunk).1 = .ok ∨ (x.intake.read chunk).1 = .full) ∧ t.replies.Kept [] ∧
      t.parser.inputb.used = x.intake.parser.inputb.used + chunk.length ∧
      t.view = { x.intake.view with upstream := { x.intake.view.upstream with
        parser := x.intake.view.upstream.parser.feed chunk } } := by
  dsimp only
  by_cases h0 : x.intake.freeSize = 0
  · obtain rfl : chunk = [] := List.eq_nil_of_length_eq_zero (by omega)
    have hread : x.intake.read [] = (.full, { x.intake with readable := false }) := if_pos h0
    rw [hread]
    refine ⟨Or.inr rfl, hk, rfl, ?_⟩
    simp [Intake.view, CmdParser.feed]
  · obtain ⟨t, hread, hkt, -, hused, -, hview⟩ := Intake.read_spec hk hf hchunk (Nat.pos_of_ne_zero h0)
    rw [hread]
    exact ⟨Or.inl rfl, hkt, hused, hview⟩

theorem backed_read (hsteady : ∀ k, (reply k).Steady) (hx : Backed identity reply x) {chunk far : Bytes}
    (ha : Answering reply x (.read chunk far)) (hf : Fits minSize x (.read chunk far)) :
    Backed identity reply (x.step identity minSize (.read chunk far)) ∧
      (x.step identity minSize (.read chunk far)).sized minSize =
        (x.actions (.read chunk far)).foldl (Sized.step identity) (x.sized minSize) := by
  obtain ⟨hans, hchunk⟩ := ha
  have hfed := read_fed hx.kept hf hchunk
  have hfilled : (x.intake.read chunk).2.inflow minSize = (x.intake.inflow minSize).read chunk.length :=
    Intake.read_inflow hx.kept hchunk
  have hunread := unread_lt hx.kept hf
  have hinput := hf.input
  obtain ⟨D, P, p, hat⟩ := hx.stands.stands
  rcases hread : x.intake.read chunk with ⟨e, t⟩
  rw [hread] at hfed hfilled
  dsimp only at hfed hfilled
  obtain ⟨hret, hkt, hused, hview⟩ := hfed
  have herr := Exchange.onServerRead_error hsteady hat hans hunread (t.parser.inputb.behind t.heap far)
  have hin : t.parser.inputb.used + minSize + 4 < 2 ^ 32 := by rw [hused]; exact hinput
  have hnonempty : (Relay.onServerRead identity (t.parser.inputb.behind t.heap far) t.view).1 ≠ .empty := by
    rw [hview]
    rcases herr with he | ⟨he, -⟩
    · exact fun hempty => Error.noConfusion (he.symm.trans hempty)
    · exact fun hempty => Error.noConfusion (he.symm.trans hempty)
  obtain ⟨hkept, hrelay⟩ := Intake.onServerRead_view hkt hin far rfl hnonempty
  have hroom := Intake.onServerRead_inflow hkt hin far rfl hnonempty
  have hstep : (x.step identity minSize (.read chunk far)).intake = (Intake.onServerRead identity minSize far t).2 := by
    show Intake.onReadable identity minSize far x.intake chunk = _
    unfold Intake.onReadable
    rw [hread]
    rcases hret with rfl | rfl <;> rfl
  have hrun : (x.step identity minSize (.read chunk far)).view =
      x.view.step identity (.read chunk (t.parser.inputb.behind t.heap far)) := by
    show (⟨(x.step identity minSize (.read chunk far)).intake.view, _, _⟩ : Exchange R) = _
    rw [hstep, hrelay, hview]
    rfl
  refine ⟨⟨by rw [hstep]; exact hkept, ?_⟩, ?_⟩
  · rw [hrun]
    exact Exchange.inv_read hsteady hx.stands chunk _ hans hunread
  · have hacts : x.actions (.read chunk far) = [.read chunk (t.parser.inputb.behind t.heap far)] := by
      simp only [actions, hread]
    have hinflow : (x.step identity minSize (.read chunk far)).intake.inflow minSize =
        (x.intake.inflow minSize).onReadable identity x.view.relay.upstream
          (chunk, t.parser.inputb.behind t.heap far) := by
      rw [hstep, hroom, hfilled, hview]
      have hlog : (x.intake.inflow minSize).onReadable identity x.intake.view.upstream
          (chunk, t.parser.inputb.behind t.heap far) = _ := Inflow.onReadable_log x.intake.view.writes rfl
      exact hlog.symm
    show (⟨_, (x.step identity minSize (.read chunk far)).intake.inflow minSize⟩ : Sized R) = _
    rw [hrun, hacts, hinflow]
    rfl

theorem backed_step (hsteady : ∀ k, (reply k).Steady) (x : Inlet R) (e : Event R) (hx : Backed identity reply x)
    (he : Answering reply x e ∧ Fits minSize x e) : Backed identity reply (x.step identity minSize e) ∧
      (x.step identity minSize e).sized minSize = (x.actions e).foldl (Sized.step identity) (x.sized minSize) := by
  cases e with
  | push cmd reader => exact backed_push hx cmd reader
  | read chunk far => exact backed_read hsteady hx he.1 he.2

/-- The bytes see nothing of the room that `Init` makes. -/
theorem start_sized {supply : Nat → Option (Nat → Byte)} (hsupply : ∀ k, supply k ≠ none) (n : Nat) (hn : 0 < n)
    {initSize : Nat} (hinit : 0 < initSize) (halloc : initSize + 4 < 2 ^ 32) :
    (start (.start supply) n hn initSize : Inlet R).sized minSize = Sized.start n hn initSize minSize := by
  have hk := Mem.Replies.kept_start (Mem.sound_start hsupply)
  have hafford : Mem.Buffer.null.Affords initSize := by
    show 0 + initSize + 4 < 2 ^ 32
    omega
  let s : Intake R := ⟨.start supply, .init, .null, .create n hn, .opened, [], true⟩
  have hstart : Intake.start (.start supply) n hn initSize = (s.makeRoom initSize).2 := by
    unfold Intake.makeRoom
    rw [if_pos (show s.freeSize < initSize from hinit)]
    rfl
  obtain ⟨-, hview, -, -⟩ := Intake.makeRoom_spec (s := s) ⟨hk.between⟩ hafford
  have hroom : (s.makeRoom initSize).2.inflow initSize = (s.inflow initSize).makeRoom 0 :=
    Intake.makeRoom_inflow ⟨hk.between⟩ hafford
  have hsizes : (s.inflow initSize).makeRoom 0 = .start initSize initSize := by
    have hinflow : s.inflow initSize = ⟨initSize, 0, 0, true⟩ := rfl
    rw [hinflow]
    unfold Inflow.makeRoom
    rw [if_pos (show Inflow.free ⟨initSize, 0, 0, true⟩ < initSize from hinit), Nat.zero_add, Nat.zero_max]
    rfl
  have hinflow : (s.makeRoom initSize).2.inflow minSize = .start initSize minSize :=
    congrArg (fun f : Inflow => { f with minSize := minSize }) (hroom.trans hsizes)
  show (⟨⟨(Intake.start (.start supply) n hn initSize).view, [], []⟩,
    (Intake.start (.start supply) n hn initSize).inflow minSize⟩ : Sized R) = _
  rw [hstart, hview, hinflow]
  rfl

/-- Over every run whose replies answer the commands accepted, in chunks that end anywhere, the
    heap's exchange is that of the bytes, with the room the numbers say, and what can be seen at
    its end is counted. -/
theorem exchange_refined (identity : R → Nat) (reply : Nat → Reply) {supply : Nat → Option (Nat → Byte)}
    (hsupply : ∀ k, supply k ≠ none) (n : Nat) (hn : 0 < n) {initSize minSize : Nat} (hinit : 0 < initSize)
    (halloc : initSize + 4 < 2 ^ 32) (hsteady : ∀ k, (reply k).Steady) (events : List (Event R))
    (hans : Each (step identity minSize) (Answering reply) (start (.start supply) n hn initSize) events)
    (hf : Each (step identity minSize) (Fits minSize) (start (.start supply) n hn initSize) events) :
    let x := events.foldl (step identity minSize) (start (.start supply) n hn initSize)
    x.sized minSize = (Sized.start n hn initSize minSize).run identity
        (trace (step identity minSize) actions (start (.start supply) n hn initSize) events) ∧
      Mem.Sound x.intake.heap [x.intake.respBuffer, x.intake.parser.inputb] ∧ Exchange.Inv identity reply x.view := by
  have hroomy : Roomy identity reply (start (.start supply) n hn initSize : Inlet R) :=
    roomy_start hsupply n hn hinit halloc
  have hstart : Backed identity reply (start (.start supply) n hn initSize : Inlet R) := ⟨hroomy.kept, hroomy.stands⟩
  have hkeeps : ∀ x e, Backed identity reply x → Answering reply x e ∧ Fits minSize x e →
      Backed identity reply (x.step identity minSize e) := fun x e hx he => (backed_step hsteady x e hx he).1
  have hend := each_run hkeeps events _ hstart (hans.and hf)
  refine ⟨?_, hend.kept.between.reading.sound, hend.stands⟩
  have htraced := traced_kept (sized minSize) hkeeps (fun x e hx he => (backed_step hsteady x e hx he).2) events _
    hstart (hans.and hf)
  rw [start_sized hsupply n hn hinit halloc] at htraced
  exact htraced

/-- The count line of an array fills the buffer, no room is made, and the rest waits. -/
theorem exchange_refined_full :
    let reply := fun _ => Reply.array [.bulk [97], .bulk [98]]
    let events : List (Event Nat) := [.push [[71]] 1, .read [42, 50, 13, 10] [], .read [] []]
    let x := events.foldl (step id 1) (start (.start fun _ => some fun _ => 0) 2 (by decide) 4)
    x.sized 1 = (Sized.start 2 (by decide) 4 1).run id
        (trace (step id 1) actions (start (.start fun _ => some fun _ => 0) 2 (by decide) 4) events) ∧
      Mem.Sound x.intake.heap [x.intake.respBuffer, x.intake.parser.inputb] ∧ Exchange.Inv id reply x.view := by
  refine exchange_refined id (fun _ => Reply.array [.bulk [97], .bulk [98]]) (fun _ => Option.some_ne_none _) 2
    (by decide) (by decide) (by decide) (fun _ => ?_) _ ?_ ?_
  · refine ⟨?_, by decide⟩
    simp [Reply.IsElement]
  · exact ⟨trivial, ⟨by decide, by decide⟩, ⟨by decide, by decide⟩, trivial⟩
  · exact ⟨trivial, ⟨by decide, by decide, by decide⟩, ⟨by decide, by decide, by decide⟩, trivial⟩

end Inlet

end RedisProxy.Server
