/-
  RedisProxy.Lib.Totals — what the shares of a merged order add up to.

  Proved: `sum_share_le` and `sum_share`, the shares of the first parties, and all of them;
  `shares_le` and `le_shares`, so for parties that each have at least, or at most, their
  share.
-/

import Mathlib
import RedisProxy.Lib.Shares

namespace RedisProxy.Lib.Shares

variable {α β κ : Type} [DecidableEq κ]

open Finset

variable {f : α → Nat}

theorem sum_share_cons (a : α) (j k : κ) (l : List (α × κ)) :
    ((share k ((a, j) :: l)).map f).sum = (if j = k then f a else 0) + ((share k l).map f).sum := by
  by_cases h : j = k
  · subst h
    rw [share_cons_own, List.map_cons, List.sum_cons, if_pos rfl]
  · rw [share_cons_other h, if_neg h, Nat.zero_add]

/-- The shares of the first `n` parties are no more than there is. -/
theorem sum_share_le (n : Nat) (l : List (α × Nat)) :
    ∑ k ∈ range n, ((share k l).map f).sum ≤ (l.map fun a => f a.1).sum := by
  induction l with
  | nil => simp
  | cons a l ih =>
    obtain ⟨a, j⟩ := a
    simp only [sum_share_cons, sum_add_distrib, sum_ite_eq, List.map_cons, List.sum_cons]
    refine Nat.add_le_add ?_ ih
    split
    · exact Nat.le_refl _
    · exact Nat.zero_le _

theorem sum_share {n : Nat} {l : List (α × Nat)} (h : ∀ a ∈ l, a.2 < n) :
    ∑ k ∈ range n, ((share k l).map f).sum = (l.map fun a => f a.1).sum := by
  induction l with
  | nil => simp
  | cons a l ih =>
    obtain ⟨a, j⟩ := a
    have hj : j ∈ range n := mem_range.mpr (h _ List.mem_cons_self)
    simp only [sum_share_cons, sum_add_distrib, sum_ite_eq, if_pos hj, List.map_cons, List.sum_cons]
    rw [ih fun a ha => h a (List.mem_cons_of_mem _ ha)]

variable {g : β → Nat}

theorem sum_map_range (cs : List β) : (cs.map g).sum = ∑ k ∈ range cs.length, (cs[k]?.map g).getD 0 := by
  induction cs with
  | nil => rfl
  | cons c cs ih =>
    rw [List.map_cons, List.sum_cons, List.length_cons, sum_range_succ', ih, Nat.add_comm]
    rfl

/-- Each party has at least its share. -/
theorem shares_le {cs : List β} {l : List (α × Nat)} (howners : ∀ a ∈ l, a.2 < cs.length)
    (h : ∀ (k : Nat) (c : β), cs[k]? = some c → ((share k l).map f).sum ≤ g c) :
    (l.map fun a => f a.1).sum ≤ (cs.map g).sum := by
  rw [← sum_share howners, sum_map_range]
  refine sum_le_sum fun k hk => ?_
  have hget := List.getElem?_eq_getElem (mem_range.mp hk)
  rw [hget]
  exact h k _ hget

/-- Each party has at most its share. -/
theorem le_shares {cs : List β} {l : List (α × Nat)}
    (h : ∀ (k : Nat) (c : β), cs[k]? = some c → g c ≤ ((share k l).map f).sum) :
    (cs.map g).sum ≤ (l.map fun a => f a.1).sum := by
  refine Nat.le_trans ?_ (sum_share_le cs.length l)
  rw [sum_map_range]
  refine sum_le_sum fun k hk => ?_
  have hget := List.getElem?_eq_getElem (mem_range.mp hk)
  rw [hget]
  exact h k _ hget

/-- One party changes. -/
theorem sum_modify {cs : List β} {k : Nat} {c : β} {w : β → β} (h : cs[k]? = some c) :
    ((cs.modify k w).map g).sum + g c = (cs.map g).sum + g (w c) := by
  induction cs generalizing k with
  | nil => cases h
  | cons d cs ih =>
    cases k with
    | zero =>
      obtain rfl := Option.some.inj h
      rw [List.modify_zero_cons, List.map_cons, List.map_cons, List.sum_cons, List.sum_cons]
      omega
    | succ k =>
      have := ih h
      rw [List.modify_succ_cons, List.map_cons, List.map_cons, List.sum_cons, List.sum_cons]
      omega

end RedisProxy.Lib.Shares
