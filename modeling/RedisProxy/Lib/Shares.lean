/-
  RedisProxy.Lib.Shares — a merged order and what each party has in it.

  The elements of the order have an owner; `share k` is what `k` owns, in that order.

  Proved: shares of concatenations, prefixes and images, and `share_next`, an element is
  the next one of its owner's share.
-/

import Mathlib.Data.List.Basic

namespace RedisProxy.Lib.Shares

variable {α β κ : Type} [DecidableEq κ]

def share (k : κ) (order : List (α × κ)) : List α := (order.filter fun a => a.2 = k).map (·.1)

@[simp] theorem share_nil (k : κ) : share k ([] : List (α × κ)) = [] := rfl

theorem share_append (k : κ) (l l' : List (α × κ)) : share k (l ++ l') = share k l ++ share k l' := by
  rw [share, share, share, List.filter_append, List.map_append]

theorem share_cons_own (k : κ) (a : α) (l : List (α × κ)) : share k ((a, k) :: l) = a :: share k l := by
  rw [share, List.filter_cons_of_pos (by simp), List.map_cons, share]

theorem share_cons_other {j k : κ} (h : j ≠ k) (a : α) (l : List (α × κ)) : share k ((a, j) :: l) = share k l := by
  rw [share, List.filter_cons_of_neg (by simpa using h), share]

/-- Elements that all belong to one party. -/
theorem share_own (k : κ) (xs : List α) : share k (xs.map fun x => (x, k)) = xs := by
  induction xs with
  | nil => rfl
  | cons x xs ih => rw [List.map_cons, share_cons_own, ih]

theorem share_other {j k : κ} (h : j ≠ k) (xs : List α) : share k (xs.map fun x => (x, j)) = [] := by
  induction xs with
  | nil => rfl
  | cons x xs ih => rw [List.map_cons, share_cons_other h, ih]

theorem share_mono (k : κ) {l l' : List (α × κ)} (h : l <+: l') : share k l <+: share k l' := by
  obtain ⟨more, rfl⟩ := h
  rw [share_append]
  exact List.prefix_append _ _

theorem share_map (k : κ) (f : α → β) (l : List (α × κ)) :
    share k (l.map fun a => (f a.1, a.2)) = (share k l).map f := by
  induction l with
  | nil => rfl
  | cons a l ih =>
    obtain ⟨a, j⟩ := a
    by_cases h : j = k
    · subst h
      rw [List.map_cons, share_cons_own, share_cons_own, ih, List.map_cons]
    · rw [List.map_cons, share_cons_other h, share_cons_other h, ih]

/-- An element is the next one of its owner's share. -/
theorem share_take_succ {l : List (α × κ)} {i : Nat} {a : α} {k : κ} (h : l[i]? = some (a, k)) :
    share k (l.take (i + 1)) = share k (l.take i) ++ [a] := by
  obtain ⟨hi, hget⟩ := List.getElem?_eq_some_iff.mp h
  rw [List.take_succ_eq_append_getElem hi, hget, share_append, share_cons_own, share_nil]

theorem share_next {l : List (α × κ)} {i : Nat} {a : α} {k : κ} (h : l[i]? = some (a, k)) :
    (share k l)[(share k (l.take i)).length]? = some a := by
  obtain ⟨more, hmore⟩ := share_mono k (List.take_prefix (i + 1) l)
  rw [← hmore, share_take_succ h, List.append_assoc, List.getElem?_append_right (Nat.le_refl _), Nat.sub_self]
  rfl

end RedisProxy.Lib.Shares
