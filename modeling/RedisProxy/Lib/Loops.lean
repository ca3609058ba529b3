/-
  RedisProxy.Lib.Loops — loops, pass after pass.

  A pass takes the state at the loop's head and goes on with another, or leaves with a
  result. `loop` makes at most so many passes and counts those that went on.

  Proved: `Lowers.leaves`, a measure that every pass lowers bounds their number, and with one
  more pass the loop has left; `loop_result`, what it leaves with is what a function on fuel
  returns that takes the same passes; `Lowers.runs`, both.
-/

import Mathlib.Data.Option.Basic

namespace RedisProxy.Lib.Loops

variable {σ ρ : Type} {pass : σ → σ ⊕ ρ}

/-- The passes that went on and what the loop left with; none if it has not left. -/
def loop (pass : σ → σ ⊕ ρ) : Nat → σ → Option (Nat × ρ)
  | 0, _ => none
  | n + 1, s =>
    match pass s with
    | .inr r => some (0, r)
    | .inl s => (loop pass n s).map fun x => (x.1 + 1, x.2)

theorem loop_leave {s : σ} {r : ρ} (hp : pass s = .inr r) (n : Nat) : loop pass (n + 1) s = some (0, r) := by
  rw [loop, hp]

theorem loop_go {s s' : σ} (hp : pass s = .inl s') (n : Nat) :
    loop pass (n + 1) s = (loop pass n s').map fun x => (x.1 + 1, x.2) := by
  rw [loop, hp]

/-- Every pass that goes on keeps `I` and lowers `μ`. -/
structure Lowers (pass : σ → σ ⊕ ρ) (I : σ → Prop) (μ : σ → Nat) : Prop where
  keeps : ∀ s s', I s → pass s = .inl s' → I s'
  lt : ∀ s s', I s → pass s = .inl s' → μ s' < μ s

theorem Lowers.leaves {I : σ → Prop} {μ : σ → Nat} (hl : Lowers pass I μ) (n : Nat) :
    ∀ s, I s → μ s < n → ∃ k r, loop pass n s = some (k, r) ∧ k ≤ μ s := by
  induction n with
  | zero => intro s _ hn; exact absurd hn (Nat.not_lt_zero _)
  | succ n ih =>
    intro s hI hn
    cases hp : pass s with
    | inr r => exact ⟨0, r, loop_leave hp n, Nat.zero_le _⟩
    | inl s' =>
      have hlt := hl.lt s s' hI hp
      obtain ⟨k, r, hk, hle⟩ := ih s' (hl.keeps s s' hI hp) (by omega)
      refine ⟨k + 1, r, ?_, by omega⟩
      rw [loop_go hp, hk]
      rfl

theorem loop_result {f : Nat → σ → ρ} (hf : ∀ n s, f (n + 1) s = (pass s).elim (f n) id) (n : Nat) :
    ∀ s k r, loop pass n s = some (k, r) → r = f n s := by
  induction n with
  | zero => intro s k r h; cases h
  | succ n ih =>
    intro s k r h
    rw [hf]
    cases hp : pass s with
    | inr r' =>
      rw [loop_leave hp] at h
      cases h
      rfl
    | inl s' =>
      rw [loop_go hp] at h
      obtain ⟨x, hx, he⟩ := Option.map_eq_some_iff.mp h
      cases he
      exact ih s' x.1 x.2 hx

/-- A function that takes the passes of a loop that leaves is what the loop leaves with. -/
theorem Lowers.runs {I : σ → Prop} {μ : σ → Nat} {f : Nat → σ → ρ} (hl : Lowers pass I μ)
    (hf : ∀ n s, f (n + 1) s = (pass s).elim (f n) id) {n : Nat} {s : σ} (hI : I s) (hn : μ s < n) :
    ∃ k, loop pass n s = some (k, f n s) ∧ k ≤ μ s := by
  obtain ⟨k, r, hk, hle⟩ := hl.leaves n s hI hn
  obtain rfl := loop_result hf n s k r hk
  exact ⟨k, hk, hle⟩

end RedisProxy.Lib.Loops
