/-
  RedisProxy.Lib.Codes — encodings that tell where they end.

  A code is delimited when what follows an encoding does not matter: the value is known,
  and so is the rest. So is a text up to a mark that it does not have (`split_mark`), a
  body whose size a delimited head gives away (`Delimited.keyed`), and a list whose length
  is known, of delimited elements (`Delimited.list`).

  Proved: `Delimited.head`, a stream of encodings that begins with one begins with its value.
-/

import Mathlib.Data.List.Basic

namespace RedisProxy.Lib.Codes

variable {α β γ κ : Type}

/-- Whatever follows, an encoding gives its value and leaves the rest. -/
def Delimited (f : α → List γ) : Prop := ∀ a b r s, f a ++ r = f b ++ s → a = b ∧ r = s

/-- The first mark tells two texts without it apart from what follows. -/
theorem split_mark {mark : γ} (u : List γ) : ∀ {v r s : List γ}, mark ∉ u → mark ∉ v →
    u ++ mark :: r = v ++ mark :: s → u = v ∧ r = s := by
  induction u with
  | nil =>
    intro v r s _ hv h
    cases v with
    | nil => exact ⟨rfl, (List.cons.inj h).2⟩
    | cons c v => exact absurd ((List.cons.inj h).1 ▸ List.mem_cons_self) hv
  | cons c u ih =>
    intro v r s hu hv h
    cases v with
    | nil => exact absurd ((List.cons.inj h).1 ▸ List.mem_cons_self) hu
    | cons d v =>
      obtain ⟨rfl, htail⟩ := List.cons.inj h
      obtain ⟨rfl, hrs⟩ := ih (List.not_mem_of_not_mem_cons hu) (List.not_mem_of_not_mem_cons hv) htail
      exact ⟨rfl, hrs⟩

/-- The head gives away a key; bodies with the same key delimit themselves. -/
theorem Delimited.keyed {head : κ → List γ} (hhead : Delimited head) (key : α → κ) (body : α → List γ)
    (hbody : ∀ a b r s, key a = key b → body a ++ r = body b ++ s → a = b ∧ r = s) :
    Delimited fun a => head (key a) ++ body a := by
  intro a b r s h
  simp only [List.append_assoc] at h
  obtain ⟨hkey, hrest⟩ := hhead _ _ _ _ h
  exact hbody a b r s hkey hrest

theorem Delimited.list {f : α → List γ} (hf : Delimited f) (xs : List α) : ∀ (ys : List α) (r s : List γ),
    xs.length = ys.length → xs.flatMap f ++ r = ys.flatMap f ++ s → xs = ys ∧ r = s := by
  induction xs with
  | nil =>
    intro ys r s hlen h
    obtain rfl := List.eq_nil_of_length_eq_zero hlen.symm
    exact ⟨rfl, h⟩
  | cons x xs ih =>
    intro ys r s hlen h
    cases ys with
    | nil => cases hlen
    | cons y ys =>
      rw [List.flatMap_cons, List.flatMap_cons, List.append_assoc, List.append_assoc] at h
      obtain ⟨rfl, hrest⟩ := hf _ _ _ _ h
      obtain ⟨rfl, hrs⟩ := ih ys r s (Nat.succ.inj hlen) hrest
      exact ⟨rfl, hrs⟩

/-- A stream of encodings that begins with one: that is its first value. -/
theorem Delimited.head {f : α → List γ} (hf : Delimited f) {xs : List α} {a : α} (h0 : f a ≠ [])
    (h : f a <+: xs.flatMap f) : ∃ xs', xs = a :: xs' := by
  obtain ⟨rest, hrest⟩ := h
  cases xs with
  | nil => exact absurd (List.append_eq_nil_iff.mp hrest).1 h0
  | cons x xs =>
    rw [List.flatMap_cons] at hrest
    obtain ⟨rfl, -⟩ := hf _ _ _ _ hrest
    exact ⟨xs, rfl⟩

end RedisProxy.Lib.Codes
