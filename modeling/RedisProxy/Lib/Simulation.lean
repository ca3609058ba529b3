/-
  RedisProxy.Lib.Simulation — a machine that does what an abstract one allows.

  The abstract machine takes actions and may refuse one. A step of the concrete machine
  answers to some actions, none or more, that lead from what its state stands for to what
  the next one does.

  Proved: `simulated`, then so does every run; `traced` and `traced_kept`, the same where the
  abstract machine refuses nothing; `perform_append`, actions in two parts.
-/

import RedisProxy.Lib.Runs

namespace RedisProxy.Lib.Simulation

open Runs

variable {σ ε τ α : Type}

instance decidableEach {P : σ → ε → Prop} {step : σ → ε → σ} [∀ s e, Decidable (P s e)] :
    ∀ (s : σ) (events : List ε), Decidable (Each step P s events)
  | _, [] => isTrue trivial
  | s, e :: events =>
    have : Decidable (Each step P (step s e) events) := decidableEach (step s e) events
    inferInstanceAs (Decidable (P s e ∧ Each step P (step s e) events))

/-- The actions one after the other, none of them refused. -/
def perform (act : τ → α → Option τ) : τ → List α → Option τ
  | t, [] => some t
  | t, a :: actions => (act t a).bind fun t' => perform act t' actions

/-- What a run of the concrete machine answers to. -/
def trace (step : σ → ε → σ) (actions : σ → ε → List α) : σ → List ε → List α
  | _, [] => []
  | s, e :: events => actions s e ++ trace step actions (step s e) events

variable {act : τ → α → Option τ} {step : σ → ε → σ} {actions : σ → ε → List α}

theorem perform_append (as bs : List α) : ∀ t,
    perform act t (as ++ bs) = (perform act t as).bind (perform act · bs) := by
  induction as with
  | nil => intro t; rfl
  | cons a as ih =>
    intro t
    show (act t a).bind (fun t' => perform act t' (as ++ bs)) = ((act t a).bind fun t' => perform act t' as).bind _
    rw [Option.bind_assoc]
    exact congrArg _ (funext ih)

/-- `shows` is what a state stands for; `I` is kept by the steps that meet `P`. -/
theorem simulated {P : σ → ε → Prop} {I : σ → Prop} {shows : σ → τ} (hkeeps : ∀ s e, I s → P s e → I (step s e))
    (hstep : ∀ s e, I s → P s e → perform act (shows s) (actions s e) = some (shows (step s e))) (events : List ε) :
    ∀ s, I s → Each step P s events →
      perform act (shows s) (trace step actions s events) = some (shows (events.foldl step s)) := by
  induction events with
  | nil => intro s _ _; rfl
  | cons e events ih =>
    intro s hi hp
    rw [trace, perform_append, hstep s e hi hp.1]
    exact ih _ (hkeeps s e hi hp.1) hp.2

theorem traced {take : τ → α → τ} (shows : σ → τ)
    (hstep : ∀ s e, shows (step s e) = (actions s e).foldl take (shows s)) (events : List ε) :
    ∀ s, shows (events.foldl step s) = (trace step actions s events).foldl take (shows s) := by
  induction events with
  | nil => intro s; rfl
  | cons e events ih =>
    intro s
    rw [trace, List.foldl_append, ← hstep]
    exact ih _

/-- The same, where that needs an invariant. -/
theorem traced_kept {P : σ → ε → Prop} {I : σ → Prop} {take : τ → α → τ} (shows : σ → τ)
    (hkeeps : ∀ s e, I s → P s e → I (step s e))
    (hstep : ∀ s e, I s → P s e → shows (step s e) = (actions s e).foldl take (shows s)) (events : List ε) :
    ∀ s, I s → Each step P s events →
      shows (events.foldl step s) = (trace step actions s events).foldl take (shows s) := by
  induction events with
  | nil => intro s _ _; rfl
  | cons e events ih =>
    intro s hi hp
    rw [trace, List.foldl_append, ← hstep s e hi hp.1]
    exact ih _ (hkeeps s e hi hp.1) hp.2

/-- What the abstract machine keeps, its runs keep. -/
theorem perform_keeps {I : τ → Prop} (h : ∀ t a t', I t → act t a = some t' → I t') (as : List α) :
    ∀ t t', I t → perform act t as = some t' → I t' := by
  induction as with
  | nil =>
    intro t t' hi ht
    obtain rfl := Option.some.inj ht
    exact hi
  | cons a as ih =>
    intro t t' hi ht
    obtain ⟨u, hu, hrest⟩ := Option.bind_eq_some_iff.mp ht
    exact ih u t' (h t a u hi hu) hrest

end RedisProxy.Lib.Simulation
