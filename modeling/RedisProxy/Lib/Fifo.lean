/-
  RedisProxy.Lib.Fifo — a queue of at most `bound` elements, oldest first.

  The bound is part of the type. `push` and `pop` are refused where they would break it, or
  find nothing; `drop` takes several at once.
-/

import Mathlib.Data.List.Basic

namespace RedisProxy.Lib

structure Fifo (α : Type) (bound : Nat) where
  items : List α
  fits : items.length ≤ bound

namespace Fifo

variable {α : Type} {bound : Nat}

def nothing : Fifo α bound := ⟨[], Nat.zero_le _⟩

def push (q : Fifo α bound) (x : α) : Option (Fifo α bound) :=
  if h : q.items.length < bound then some ⟨q.items ++ [x], by rw [List.length_append]; exact h⟩ else none

def pop (q : Fifo α bound) : Option (α × Fifo α bound) :=
  match q with
  | ⟨[], _⟩ => none
  | ⟨x :: items, h⟩ => some (x, ⟨items, Nat.le_of_succ_le h⟩)

/-- The oldest `n` gone. -/
def drop (q : Fifo α bound) (n : Nat) : Fifo α bound :=
  ⟨q.items.drop n, Nat.le_trans (by rw [List.length_drop]; exact Nat.sub_le _ _) q.fits⟩

variable {q : Fifo α bound}

theorem push_full (x : α) (h : q.items.length = bound) : q.push x = none :=
  dif_neg fun hlt => absurd h (Nat.ne_of_lt hlt)

theorem push_room (x : α) (h : q.items.length < bound) : ∃ q', q.push x = some q' ∧ q'.items = q.items ++ [x] :=
  ⟨_, dif_pos h, rfl⟩

theorem pop_nil (h : q.items = []) : q.pop = none := by
  obtain ⟨items, hfits⟩ := q
  obtain rfl : items = [] := h
  rfl

theorem pop_cons {x : α} {items : List α} (h : q.items = x :: items) :
    ∃ q', q.pop = some (x, q') ∧ q'.items = items := by
  obtain ⟨_, hfits⟩ := q
  obtain rfl := h
  exact ⟨_, rfl, rfl⟩

end Fifo

end RedisProxy.Lib
