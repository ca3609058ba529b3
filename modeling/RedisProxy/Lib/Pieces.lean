/-
  RedisProxy.Lib.Pieces — where a prefix of a concatenation ends.

  A stream is a concatenation of pieces. `Proper u s`: `u` is a prefix of `s` and `s`
  goes on. A proper prefix of two pieces ends in the first or goes through it
  (`proper_append`); one of a list of pieces passes some of them whole and ends inside
  the next (`proper_flatMap`), which one being determined (`split_unique`).
-/

namespace RedisProxy.Lib.Pieces

variable {α β : Type}

/-- `u` is a prefix of `s`, and there is more of `s`. -/
def Proper (u s : List α) : Prop := ∃ t, t ≠ [] ∧ s = u ++ t

theorem proper_nil {s : List α} (h : s ≠ []) : Proper [] s := ⟨s, h, rfl⟩

theorem not_proper_nil (u : List α) : ¬ Proper u [] := by
  rintro ⟨t, ht, h⟩
  cases t with
  | nil => exact ht rfl
  | cons a t => cases u <;> cases h

theorem Proper.length_lt {u s : List α} (h : Proper u s) : u.length < s.length := by
  obtain ⟨t, ht, rfl⟩ := h
  have : 0 < t.length := List.length_pos_iff.mpr ht
  simp; omega

theorem Proper.isPrefix {u s : List α} (h : Proper u s) : u <+: s := by
  obtain ⟨t, _, rfl⟩ := h
  exact List.prefix_append u t

theorem Proper.append_left {u s : List α} (h : Proper u s) (r : List α) : Proper (r ++ u) (r ++ s) := by
  obtain ⟨t, ht, rfl⟩ := h
  exact ⟨t, ht, by rw [List.append_assoc]⟩

theorem proper_append_left {r u s : List α} : Proper (r ++ u) (r ++ s) ↔ Proper u s := by
  constructor
  · rintro ⟨t, ht, h⟩
    rw [List.append_assoc] at h
    exact ⟨t, ht, List.append_cancel_left h⟩
  · exact fun h => h.append_left r

theorem Proper.append_right {u s : List α} (h : Proper u s) (r : List α) : Proper u (s ++ r) := by
  obtain ⟨t, ht, rfl⟩ := h
  exact ⟨t ++ r, by simp [ht], by rw [List.append_assoc]⟩

theorem proper_of_append {u v s : List α} (h : Proper (u ++ v) s) : Proper u s := by
  obtain ⟨t, ht, rfl⟩ := h
  exact ⟨v ++ t, by simp [ht], by rw [List.append_assoc]⟩

theorem proper_of_ne {u s : List α} (h : u <+: s) (hne : u ≠ s) : Proper u s := by
  obtain ⟨t, rfl⟩ := h
  exact ⟨t, fun e => hne (by rw [e, List.append_nil]), rfl⟩

/-- A proper prefix of a line lacks the byte that ends it. -/
theorem Proper.not_mem {u l : List α} {b : α} (h : Proper u (l ++ [b])) (hb : b ∉ l) : b ∉ u := by
  obtain ⟨t, ht, e⟩ := h
  intro hm
  rcases List.eq_nil_or_concat t with rfl | ⟨t', x, rfl⟩
  · exact ht rfl
  · rw [List.concat_eq_append, ← List.append_assoc] at e
    have := (List.append_inj' e rfl).1
    exact hb (this ▸ List.mem_append_left _ hm)

theorem proper_append {u s t : List α} (h : Proper u (s ++ t)) :
    Proper u s ∨ ∃ w, u = s ++ w ∧ Proper w t := by
  obtain ⟨v, hv, e⟩ := h
  rcases List.append_eq_append_iff.mp e with ⟨w, rfl, rfl⟩ | ⟨w, rfl, rfl⟩
  · exact Or.inr ⟨w, rfl, v, hv, rfl⟩
  · by_cases hw : w = []
    · subst hw
      exact Or.inr ⟨[], by simp, _, hv, rfl⟩
    · exact Or.inl ⟨w, hw, rfl⟩

/-- A proper prefix of a concatenation passes some pieces whole and ends inside the next. -/
theorem proper_flatMap {f : β → List α} {xs : List β} {u : List α} (h : Proper u (xs.flatMap f)) :
    ∃ done x todo w, xs = done ++ x :: todo ∧ u = done.flatMap f ++ w ∧ Proper w (f x) := by
  induction xs generalizing u with
  | nil => exact absurd h (not_proper_nil u)
  | cons x xs ih =>
    rw [List.flatMap_cons] at h
    rcases proper_append h with hx | ⟨w, rfl, hw⟩
    · exact ⟨[], x, xs, u, rfl, rfl, hx⟩
    · obtain ⟨done, y, todo, v, rfl, rfl, hv⟩ := ih hw
      exact ⟨x :: done, y, todo, v, rfl, by simp, hv⟩

/-- The piece a proper prefix ends in is determined. -/
theorem split_unique {f : β → List α} {done done' todo todo' : List β} {x x' : β} {w w' : List α}
    (hx : done ++ x :: todo = done' ++ x' :: todo') (hu : done.flatMap f ++ w = done'.flatMap f ++ w')
    (hw : Proper w (f x)) (hw' : Proper w' (f x')) : done = done' ∧ x = x' ∧ todo = todo' ∧ w = w' := by
  have hlen := congrArg List.length hu
  have hlt := hw.length_lt
  have hlt' := hw'.length_lt
  rcases List.append_eq_append_iff.mp hx with ⟨s, rfl, hs⟩ | ⟨s, rfl, hs⟩
  · cases s with
    | nil =>
      obtain ⟨rfl, rfl⟩ := List.cons.inj hs
      simpa using hu
    | cons y s =>
      obtain ⟨rfl, rfl⟩ := List.cons.inj hs
      simp only [List.flatMap_append, List.flatMap_cons, List.length_append] at hlen
      omega
  · cases s with
    | nil =>
      obtain ⟨rfl, rfl⟩ := List.cons.inj hs
      simpa using hu
    | cons y s =>
      obtain ⟨rfl, rfl⟩ := List.cons.inj hs
      simp only [List.flatMap_append, List.flatMap_cons, List.length_append] at hlen
      omega

end RedisProxy.Lib.Pieces
