/-
  RedisProxy.Lib.Runs — runs of a machine, event after event.

  Proved: `each_append`, `each_run`, an invariant that holds where a condition on the steps does,
  `each_tracks`, a property that follows whether the condition has held so far,
  `each_exact`, the condition that is exactly what an invariant needs, `each_congr`, two
  conditions that are one wherever an invariant holds, and `each_keeps`, what every step of a
  run has that keeps an invariant; `answers_simulated`, two machines that a relation between
  their states keeps together answer alike.
-/

import Mathlib.Data.List.Basic

namespace RedisProxy.Lib.Runs

variable {σ ε : Type} {step : σ → ε → σ} {P Q : σ → ε → Prop}

/-- `P` of the state before every event of the run, and the event. -/
def Each (step : σ → ε → σ) (P : σ → ε → Prop) : σ → List ε → Prop
  | _, [] => True
  | s, e :: events => P s e ∧ Each step P (step s e) events

theorem Each.and : ∀ {events : List ε} {s : σ}, Each step P s events → Each step Q s events →
    Each step (fun s e => P s e ∧ Q s e) s events
  | [], _, _, _ => trivial
  | _ :: _, _, hp, hq => ⟨⟨hp.1, hq.1⟩, Each.and hp.2 hq.2⟩

theorem Each.mono (h : ∀ s e, P s e → Q s e) : ∀ {events : List ε} {s : σ}, Each step P s events → Each step Q s events
  | [], _, _ => trivial
  | _ :: _, _, hp => ⟨h _ _ hp.1, Each.mono h hp.2⟩

theorem each_append (events later : List ε) : ∀ s, Each step P s (events ++ later) ↔
    Each step P s events ∧ Each step P (events.foldl step s) later := by
  induction events with
  | nil =>
    intro s
    exact ⟨fun hl => ⟨trivial, hl⟩, And.right⟩
  | cons e events ih =>
    intro s
    show (P s e ∧ Each step P (step s e) (events ++ later)) ↔ _
    rw [ih, ← and_assoc]
    rfl

theorem each_run {I : σ → Prop} (hstep : ∀ s e, I s → P s e → I (step s e)) (events : List ε) :
    ∀ s, I s → Each step P s events → I (events.foldl step s) := by
  induction events with
  | nil => intro s h _; exact h
  | cons e events ih =>
    intro s h he
    exact ih _ (hstep s e h he.1) he.2

/-- `K` says whether the run has met `P` so far. -/
theorem each_tracks {J : Prop → σ → Prop} (hstep : ∀ K s e, J K s → J (K ∧ P s e) (step s e))
    (events : List ε) :
    ∀ K s, J K s → J (K ∧ Each step P s events) (events.foldl step s) := by
  induction events with
  | nil =>
    intro K s h
    simpa [Each] using h
  | cons e events ih =>
    intro K s h
    have hrest := ih _ _ (hstep K s e h)
    rwa [and_assoc] at hrest

/-- `W` holds always; `P` is exactly what a step must meet to keep `I`. -/
theorem each_exact {W I : σ → Prop} (hW : ∀ s e, W s → W (step s e))
    (h : ∀ s e, W s → I s → (P s e ↔ I (step s e))) (events : List ε) :
    ∀ s, W s → I s → (Each step P s events ↔ Each step (fun s e => I (step s e)) s events) := by
  induction events with
  | nil => intro s _ _; exact Iff.rfl
  | cons e events ih =>
    intro s hw hi
    have hstep := h s e hw hi
    constructor
    · rintro ⟨hp, he⟩
      have hi' := hstep.mp hp
      exact ⟨hi', (ih _ (hW s e hw) hi').mp he⟩
    · rintro ⟨hi', he⟩
      exact ⟨hstep.mpr hi', (ih _ (hW s e hw) hi').mpr he⟩

/-- `W` holds as long as the steps meet `H`; wherever both do, `P` and `Q` are one. -/
theorem each_congr {H : σ → ε → Prop} {W : σ → Prop} (hW : ∀ s e, W s → H s e → W (step s e))
    (h : ∀ s e, W s → H s e → (P s e ↔ Q s e)) (events : List ε) :
    ∀ s, W s → Each step H s events → (Each step P s events ↔ Each step Q s events) := by
  induction events with
  | nil => intro s _ _; exact Iff.rfl
  | cons e events ih =>
    intro s hw hh
    exact and_congr (h s e hw hh.1) (ih _ (hW s e hw hh.1) hh.2)

/-- As long as the steps meet `P` they keep `I`, and have `Q`. -/
theorem each_keeps {I : σ → Prop} (h : ∀ s e, I s → P s e → I (step s e) ∧ Q s e) (events : List ε) :
    ∀ s, I s → Each step P s events → Each step Q s events := by
  induction events with
  | nil => intro s _ _; trivial
  | cons e events ih =>
    intro s hi hp
    obtain ⟨hi', hq⟩ := h s e hi hp.1
    exact ⟨hq, ih _ hi' hp.2⟩

/-! ## Machines that answer -/

variable {τ ω : Type}

/-- The answers of a run, event after event. -/
def answers (f : σ → ε → ω × σ) : σ → List ε → List ω
  | _, [] => []
  | s, e :: events => (f s e).1 :: answers f (f s e).2 events

theorem answers_simulated {f : σ → ε → ω × σ} {g : τ → ε → ω × τ} {R : σ → τ → Prop}
    (h : ∀ s t e, R s t → (f s e).1 = (g t e).1 ∧ R (f s e).2 (g t e).2) (events : List ε) :
    ∀ s t, R s t → answers f s events = answers g t events ∧
      R (events.foldl (fun s e => (f s e).2) s) (events.foldl (fun t e => (g t e).2) t) := by
  induction events with
  | nil => intro s t hr; exact ⟨rfl, hr⟩
  | cons e events ih =>
    intro s t hr
    obtain ⟨he, hr'⟩ := h s t e hr
    obtain ⟨hrest, hend⟩ := ih _ _ hr'
    exact ⟨by rw [answers, answers, he, hrest], hend⟩

end RedisProxy.Lib.Runs
