/-
  RedisProxy.Lib.Cells — runs of cells of a memory, and writes to it.

  A memory is a function from positions; `cells` is the list of what is at some of them,
  `fill` the memory after a list is copied to a position.

  Proved: a run of cells is cut by `take`, `drop` and `++` like a list, and after `fill`
  the cells written are the list (`cells_fill`) and the others what they were
  (`cells_fill_before`, `cells_fill_after`); a run is what it was exactly if the list is what was
  there (`cells_fill_iff`).
-/

import Mathlib.Data.List.Basic

namespace RedisProxy.Lib.Cells

variable {α : Type}

/-- The `n` cells from `i` on. -/
def cells (f : Nat → α) (i n : Nat) : List α := (List.range n).map fun k => f (i + k)

/-- `l` copied to `i`. -/
def fill (f : Nat → α) (i : Nat) (l : List α) : Nat → α :=
  fun j => if i ≤ j then (l[j - i]?).getD (f j) else f j

variable {f g : Nat → α}

@[simp] theorem length_cells (f : Nat → α) (i n : Nat) : (cells f i n).length = n := by simp [cells]

@[simp] theorem cells_zero (f : Nat → α) (i : Nat) : cells f i 0 = [] := rfl

theorem cells_congr {i n : Nat} (h : ∀ j, i ≤ j → j < i + n → f j = g j) : cells f i n = cells g i n := by
  refine List.map_congr_left fun k hk => ?_
  have hk := List.mem_range.mp hk
  exact h (i + k) (by omega) (by omega)

theorem getElem?_cells (f : Nat → α) (i : Nat) {n k : Nat} (h : k < n) : (cells f i n)[k]? = some (f (i + k)) := by
  rw [cells, List.getElem?_map, List.getElem?_range h]
  rfl

theorem cells_append (f : Nat → α) (i m n : Nat) : cells f i m ++ cells f (i + m) n = cells f i (m + n) := by
  rw [cells, cells, cells, List.range_add, List.map_append, List.map_map]
  refine congrArg _ (List.map_congr_left fun k _ => ?_)
  rw [Function.comp_apply, Nat.add_assoc]

theorem cells_take (f : Nat → α) (i n : Nat) {k : Nat} (h : k ≤ n) : (cells f i n).take k = cells f i k := by
  obtain ⟨m, rfl⟩ := Nat.exists_eq_add_of_le h
  rw [← cells_append, List.take_left' (length_cells f i k)]

theorem cells_drop (f : Nat → α) (i n : Nat) {k : Nat} (h : k ≤ n) :
    (cells f i n).drop k = cells f (i + k) (n - k) := by
  obtain ⟨m, rfl⟩ := Nat.exists_eq_add_of_le h
  rw [← cells_append, List.drop_left' (length_cells f i k), Nat.add_sub_cancel_left]

theorem cells_fill (f : Nat → α) (i : Nat) (l : List α) : cells (fill f i l) i l.length = l := by
  refine List.ext_getElem? fun k => ?_
  by_cases hk : k < l.length
  · rw [getElem?_cells _ _ hk, fill, if_pos (Nat.le_add_right i k), Nat.add_sub_cancel_left,
      List.getElem?_eq_getElem hk]
    rfl
  · rw [List.getElem?_eq_none (by rw [length_cells]; omega), List.getElem?_eq_none (by omega)]

theorem cells_fill_before (f : Nat → α) {i j n : Nat} (l : List α) (h : j + n ≤ i) :
    cells (fill f i l) j n = cells f j n := by
  refine cells_congr fun k _ hk => ?_
  rw [fill, if_neg (by omega)]

theorem cells_fill_after (f : Nat → α) {i j n : Nat} (l : List α) (h : i + l.length ≤ j) :
    cells (fill f i l) j n = cells f j n := by
  refine cells_congr fun k hk _ => ?_
  rw [fill, if_pos (by omega), List.getElem?_eq_none (by omega)]
  rfl

/-- What was there, and what was written behind it. -/
theorem cells_fill_end (f : Nat → α) (i n : Nat) (l : List α) :
    cells (fill f (i + n) l) i (n + l.length) = cells f i n ++ l := by
  rw [← cells_append, cells_fill_before f l (Nat.le_refl _), cells_fill]

/-- What was written, and what is behind it. -/
theorem cells_fill_start (f : Nat → α) (i n : Nat) (l : List α) :
    cells (fill f i l) i (l.length + n) = l ++ cells f (i + l.length) n := by
  rw [← cells_append, cells_fill, cells_fill_after f l (Nat.le_refl _)]

/-- A run that a write leaves as it was: where they meet, it was that already. -/
theorem cells_fill_iff (f : Nat → α) (i j n : Nat) (l : List α) :
    cells (fill f i l) j n = cells f j n ↔
      ∀ k < l.length, j ≤ i + k → i + k < j + n → l[k]? = some (f (i + k)) := by
  constructor
  · intro he k hk h1 h2
    have hread := congrArg (fun l' => l'[i + k - j]?) he
    rw [getElem?_cells _ _ (by omega), getElem?_cells _ _ (by omega), Nat.add_sub_cancel' h1] at hread
    rw [List.getElem?_eq_getElem hk, ← hread, fill, if_pos (Nat.le_add_right i k), Nat.add_sub_cancel_left,
      List.getElem?_eq_getElem hk]
    rfl
  · intro hmeet
    refine cells_congr fun p h1 h2 => ?_
    unfold fill
    split
    · rename_i hip
      by_cases hk : p - i < l.length
      · have hthere := hmeet (p - i) hk (by omega) (by omega)
        rw [hthere, Nat.add_sub_cancel' hip]
        rfl
      · rw [List.getElem?_eq_none (by omega)]
        rfl
    · rfl

end RedisProxy.Lib.Cells
