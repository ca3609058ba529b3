/-
  RedisProxy.Server.Ring — the command ring (recycle.h).

  A ring of `n` slots keeps at most `n - 1` entries, from `start` up to `stop` (`end_`)
  around the end of the vector. The bounds of the two indices are part of the type, so
  no slot is ever missed.

  Proved: the ring is the queue of what it holds (`held`): `push` appends or is refused
  when `n - 1` entries are held (`push_held`), `pop` takes the oldest or finds none
  (`pop_held`).
-/

import RedisProxy.Wire.Buffer

namespace RedisProxy.Server

open Wire

structure Recycle (α : Type) where
  holder : List α
  start : Nat
  stop : Nat
  start_lt : start < holder.length
  stop_lt : stop < holder.length

namespace Recycle

variable {α : Type}

def create [Inhabited α] (n : Nat) (h : 0 < n) : Recycle α :=
  ⟨List.replicate n default, 0, 0, by rwa [List.length_replicate], by rwa [List.length_replicate]⟩

/-- The slot after `i`. -/
def next (r : Recycle α) (i : Nat) : Nat := (i + 1) % r.holder.length

theorem next_lt (r : Recycle α) (i : Nat) : r.next i < r.holder.length :=
  Nat.mod_lt _ (Nat.lt_of_le_of_lt (Nat.zero_le _) r.start_lt)

def push (r : Recycle α) (data : α) : Except Error (Recycle α) :=
  if r.next r.stop = r.start then .error .full
  else .ok ⟨r.holder.set r.stop data, r.start, r.next r.stop, by rw [List.length_set]; exact r.start_lt,
    by rw [List.length_set]; exact r.next_lt r.stop⟩

def pop [Inhabited α] (r : Recycle α) : Except Error (α × Recycle α) :=
  if r.start = r.stop then .error .empty
  else .ok (r.holder.getD r.start default, ⟨r.holder, r.next r.start, r.stop, r.next_lt r.start, r.stop_lt⟩)

/-! ## Indices -/

theorem mod_of_lt_two_mul {x n : Nat} (h : x < 2 * n) : x % n = if x < n then x else x - n := by
  split
  · rename_i hlt; exact Nat.mod_eq_of_lt hlt
  · rename_i hle
    rw [Nat.mod_eq_sub_mod (by omega), Nat.mod_eq_of_lt (by omega)]

/-- How many entries are held. -/
def size (r : Recycle α) : Nat := (r.stop + r.holder.length - r.start) % r.holder.length

theorem size_eq (r : Recycle α) :
    r.size = if r.start ≤ r.stop then r.stop - r.start else r.stop + r.holder.length - r.start := by
  have h1 := r.start_lt
  have h2 := r.stop_lt
  rw [size, mod_of_lt_two_mul (by omega)]
  split <;> split <;> omega

theorem next_eq (r : Recycle α) {i : Nat} (h : i < r.holder.length) :
    r.next i = if i + 1 < r.holder.length then i + 1 else 0 := by
  rw [next, mod_of_lt_two_mul (by omega)]
  split <;> omega

/-- The slot of the `i`th entry. -/
def slot (r : Recycle α) (i : Nat) : Nat := (r.start + i) % r.holder.length

theorem slot_eq (r : Recycle α) {i : Nat} (h : i < r.holder.length) :
    r.slot i = if r.start + i < r.holder.length then r.start + i else r.start + i - r.holder.length := by
  have h1 := r.start_lt
  rw [slot, mod_of_lt_two_mul (by omega)]

theorem size_lt (r : Recycle α) : r.size < r.holder.length :=
  Nat.mod_lt _ (Nat.lt_of_le_of_lt (Nat.zero_le _) r.start_lt)

theorem slot_size (r : Recycle α) : r.slot r.size = r.stop := by
  have h1 := r.start_lt
  have h2 := r.stop_lt
  rw [slot_eq r r.size_lt, size_eq]
  split <;> split <;> omega

theorem slot_ne_stop (r : Recycle α) {i : Nat} (h : i < r.size) : r.slot i ≠ r.stop := by
  have h1 := r.start_lt
  have h2 := r.stop_lt
  have h3 := r.size_lt
  rw [slot_eq r (by omega)]
  rw [size_eq] at h
  split at h <;> split <;> omega

theorem slot_zero (r : Recycle α) : r.slot 0 = r.start := Nat.mod_eq_of_lt r.start_lt

theorem next_slot (r : Recycle α) (i : Nat) : r.next (r.slot i) = r.slot (i + 1) := by
  rw [next, slot, Nat.mod_add_mod]
  rfl

theorem slot_stop_iff (r : Recycle α) {i : Nat} (h : i ≤ r.size) : r.slot i = r.stop ↔ i = r.size := by
  constructor
  · intro he
    by_contra hne
    exact slot_ne_stop r (Nat.lt_of_le_of_ne h hne) he
  · rintro rfl
    exact slot_size r

/-! ## Contents -/

variable [Inhabited α]

/-- The entries, oldest first. -/
def held (r : Recycle α) : List α := (List.range r.size).map fun i => r.holder.getD (r.slot i) default

@[simp] theorem length_held (r : Recycle α) : r.held.length = r.size := by simp [held]

theorem held_create (n : Nat) (h : 0 < n) : (create n h : Recycle α).held = [] := by
  simp [held, size, create]

theorem full_iff (r : Recycle α) : r.next r.stop = r.start ↔ r.held.length + 1 = r.holder.length := by
  have h1 := r.start_lt
  have h2 := r.stop_lt
  rw [length_held, size_eq, next_eq r h2]
  split <;> split <;> omega

theorem empty_iff (r : Recycle α) : r.start = r.stop ↔ r.held = [] := by
  have h1 := r.start_lt
  have h2 := r.stop_lt
  rw [← List.length_eq_zero_iff, length_held, size_eq]
  split <;> omega

/-- `Push` is refused exactly when one slot is left, and appends otherwise. -/
theorem push_held (r : Recycle α) (data : α) :
    (r.held.length + 1 = r.holder.length ∧ r.push data = .error .full) ∨
    (r.held.length + 1 < r.holder.length ∧
      ∃ r', r.push data = .ok r' ∧ r'.held = r.held ++ [data] ∧ r'.holder.length = r.holder.length) := by
  have h1 := r.start_lt
  have h2 := r.stop_lt
  by_cases hf : r.next r.stop = r.start
  · exact Or.inl ⟨(full_iff r).mp hf, if_pos hf⟩
  · refine Or.inr ⟨?_, _, if_neg hf, ?_, List.length_set⟩
    · have := r.size_lt
      have := mt (full_iff r).mpr hf
      rw [length_held] at this ⊢
      omega
    · generalize hr' : (⟨r.holder.set r.stop data, r.start, r.next r.stop, _, _⟩ : Recycle α) = r'
      have hlen : r'.holder.length = r.holder.length := by rw [← hr']; exact List.length_set
      have hslot : ∀ i, r'.slot i = r.slot i := by intro i; rw [slot, slot, hlen, ← hr']
      have hstart : r'.start = r.start := by rw [← hr']
      have hstop : r'.stop = r.next r.stop := by rw [← hr']
      have hsize : r'.size = r.size + 1 := by
        have hn := next_eq r h2
        rw [size_eq, size_eq, hlen, hstart, hstop]
        split at hn <;> split <;> split <;> omega
      have hget : ∀ i, r'.holder.getD (r'.slot i) default =
          if r.slot i = r.stop then data else r.holder.getD (r.slot i) default := by
        intro i
        rw [hslot, ← hr']
        simp only [List.getD_eq_getElem?_getD, List.getElem?_set]
        split
        · rename_i he
          rw [if_pos he.symm]
          rfl
        · rename_i he
          rw [if_neg (fun e => he e.symm)]
      rw [held, hsize, List.range_succ, List.map_append, List.map_singleton, hget, if_pos (slot_size r), held]
      congr 1
      refine List.map_congr_left fun i hi => ?_
      rw [hget, if_neg (slot_ne_stop r (List.mem_range.mp hi))]

/-- `Pop` finds none exactly when none is held, and takes the oldest otherwise. -/
theorem pop_held (r : Recycle α) :
    (r.held = [] ∧ r.pop = .error .empty) ∨
    ∃ data r', r.pop = .ok (data, r') ∧ r.held = data :: r'.held ∧ r'.holder.length = r.holder.length := by
  have h1 := r.start_lt
  have h2 := r.stop_lt
  by_cases he : r.start = r.stop
  · exact Or.inl ⟨(empty_iff r).mp he, if_pos he⟩
  · refine Or.inr ⟨_, _, if_neg he, ?_, rfl⟩
    generalize hr' : (⟨r.holder, r.next r.start, r.stop, _, _⟩ : Recycle α) = r'
    have hlen : r'.holder = r.holder := by rw [← hr']
    have hsize : r.size = r'.size + 1 := by
      rw [size_eq, size_eq, hlen, ← hr']
      simp only
      rw [next_eq r h1]
      split <;> split <;> split <;> omega
    have hslot : ∀ i, i < r'.size → r.slot (i + 1) = r'.slot i := by
      intro i hi
      have := r.size_lt
      have hs : r'.start = r.next r.start := by rw [← hr']
      rw [slot_eq r (by omega), slot_eq r' (by rw [hlen]; omega), hlen, hs, next_eq r h1]
      split <;> split <;> split <;> omega
    rw [held, hsize, List.range_succ_eq_map, List.map_cons, List.map_map, r.slot_zero, held]
    congr 1
    refine List.map_congr_left fun i hi => ?_
    show r.holder.getD (r.slot (i + 1)) default = _
    rw [hslot i (List.mem_range.mp hi), hlen]

end Recycle

end RedisProxy.Server
