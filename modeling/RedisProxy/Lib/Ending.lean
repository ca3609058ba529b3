/-
  RedisProxy.Lib.Ending — runs that come to an end.

  `Ends step P Q goal s`: whichever steps of `P` are taken from `s`, they come to an end, and
  where there is none of `Q` left the goal is reached. `Q` has the steps that are there
  whatever the others wait for.

  Proved: `ends_of_less`, so it is where every step lowers a measure and only the goal has
  no step of `Q`; `Ends.no_run` and `Ends.last`, what it says of runs; `always_from`, a run
  without an end whose measure never rises, and falls wherever the goal is missed.
-/

import Mathlib.Order.Monotone.Basic
import Mathlib.Order.WellFounded
import RedisProxy.Lib.Runs

namespace RedisProxy.Lib.Ending

open Runs

variable {σ ε ρ : Type}

inductive Ends (step : σ → ε → σ) (P Q : σ → ε → Prop) (goal : σ → Prop) : σ → Prop
  | intro {s : σ} (stuck : (∀ e, ¬ Q s e) → goal s) (next : ∀ e, P s e → Ends step P Q goal (step s e)) :
      Ends step P Q goal s

variable {step : σ → ε → σ} {P Q : σ → ε → Prop} {goal : σ → Prop}

/-- `I` is kept, `less` is well-founded, and a state that is not the goal has a step. -/
theorem ends_of_less {I : σ → Prop} {less : ρ → ρ → Prop} (hwf : WellFounded less) (μ : σ → ρ)
    (hkeeps : ∀ s e, I s → P s e → I (step s e)) (hless : ∀ s e, I s → P s e → less (μ (step s e)) (μ s))
    (hgoes : ∀ s, I s → ¬ goal s → ∃ e, Q s e) (s : σ) (hs : I s) : Ends step P Q goal s := by
  generalize hm : μ s = m
  induction m using hwf.induction generalizing s with
  | _ m ih =>
    refine .intro (fun hstuck => ?_) fun e he => ih _ (hm ▸ hless s e hs he) _ (hkeeps s e hs he) rfl
    by_contra hgoal
    obtain ⟨e, he⟩ := hgoes s hs hgoal
    exact hstuck e he

/-- The states of a run that does not end. -/
def states (step : σ → ε → σ) (events : Nat → ε) (s : σ) : Nat → σ
  | 0 => s
  | i + 1 => step (states step events s i) (events i)

theorem states_succ (events : Nat → ε) (s : σ) (i : Nat) :
    states step events s (i + 1) = states step (fun j => events (j + 1)) (step s (events 0)) i := by
  induction i with
  | zero => rfl
  | succ i ih =>
    rw [states, ih]
    rfl

theorem Ends.no_run {s : σ} (h : Ends step P Q goal s) (events : Nat → ε) :
    ∃ i, ¬ P (states step events s i) (events i) := by
  induction h generalizing events with
  | intro _ _ ih =>
    by_contra hall
    have hall : ∀ i, P (states step events _ i) (events i) := fun i => by
      by_contra hi
      exact hall ⟨i, hi⟩
    obtain ⟨i, hi⟩ := ih (events 0) (hall 0) fun j => events (j + 1)
    rw [← states_succ] at hi
    exact hi (hall (i + 1))

theorem Ends.last (events : List ε) : ∀ s, Ends step P Q goal s → Each step P s events →
    (∀ e, ¬ Q (events.foldl step s) e) → goal (events.foldl step s) := by
  induction events with
  | nil =>
    rintro s ⟨stuck, -⟩ _ hlast
    exact stuck hlast
  | cons e events ih =>
    rintro s ⟨-, next⟩ hp hlast
    exact ih _ (next e hp.1) hp.2 hlast

theorem always_from {ρ : Type} [LinearOrder ρ] [WellFoundedLT ρ] {holds : Nat → Prop} {μ : Nat → ρ}
    (hle : ∀ i, μ (i + 1) ≤ μ i) (hlt : ∀ i, ¬ holds i → μ (i + 1) < μ i) : ∃ i, ∀ j, i ≤ j → holds j := by
  obtain ⟨m, ⟨i, rfl⟩, hmin⟩ := (wellFounded_lt (α := ρ)).has_min (Set.range μ) ⟨μ 0, 0, rfl⟩
  refine ⟨i, ?_⟩
  intro j hj
  by_contra hno
  have hfall := (hlt j hno).trans_le (antitone_nat_of_succ_le hle hj)
  exact hmin _ ⟨j + 1, rfl⟩ hfall

end RedisProxy.Lib.Ending
