/-
  RedisProxy.Lib.Slots — a table of slots, the lowest free one taken next.

  `Holds` says who has what: the slots in use with what is in them are a permutation of a
  list, so each slot is in it once. Its rules are those of a heap in pieces: one piece is
  taken, changed or freed, and the rest of the list stays.

  Proved: `holds_take`, `holds_change`, `holds_free`; `entries_free`, `entries_put`, what a
  table of owners holds after one is gone or is another.
-/

import Mathlib.Data.List.Nodup
import Mathlib.Data.List.Perm.Basic
import Mathlib.Data.List.ReduceOption

namespace RedisProxy.Lib.Slots

variable {α β : Type}

def entry (t : List (Option α)) (i : Nat) : Option α := t[i]?.join

def lowest : List (Option α) → Nat
  | [] => 0
  | none :: _ => 0
  | some _ :: t => lowest t + 1

/-- In the lowest free slot. -/
def take (x : α) : List (Option α) → List (Option α)
  | [] => [some x]
  | none :: t => some x :: t
  | some y :: t => some y :: take x t

def free (t : List (Option α)) (i : Nat) : List (Option α) := t.set i none

/-- Nothing where the slot is free. -/
def change (f : α → α) (t : List (Option α)) (i : Nat) : List (Option α) := t.modify i (Option.map f)

def next (p : Nat × α) : Nat × α := (p.1 + 1, p.2)

/-- The slots in use. -/
def items : List (Option α) → List (Nat × α)
  | [] => []
  | none :: t => (items t).map next
  | some x :: t => (0, x) :: (items t).map next

variable {t : List (Option α)} {i : Nat} {x y : α}

/-! ## One slot -/

@[simp] theorem entry_nil (i : Nat) : entry ([] : List (Option α)) i = none := by simp [entry]

@[simp] theorem entry_zero (x : Option α) (t : List (Option α)) : entry (x :: t) 0 = x := rfl

@[simp] theorem entry_succ (x : Option α) (t : List (Option α)) (i : Nat) : entry (x :: t) (i + 1) = entry t i := by
  simp [entry]

theorem entry_free (t : List (Option α)) (i j : Nat) :
    entry (free t i) j = if j = i then none else entry t j := by
  unfold entry free
  by_cases hj : j = i
  · subst hj
    rw [if_pos rfl, List.getElem?_set, if_pos rfl]
    split <;> rfl
  · rw [if_neg hj, List.getElem?_set_ne (Ne.symm hj)]

/-! ## Those in use -/

theorem mem_items : ∀ {t : List (Option α)} {i : Nat} {x : α}, (i, x) ∈ items t ↔ entry t i = some x := by
  intro t
  induction t with
  | nil => intro i x; simp [items]
  | cons y t ih => intro i x; cases y <;> cases i <;> simp [items, next, ih, eq_comm]

theorem items_once (t : List (Option α)) : ((items t).map Prod.fst).Nodup := by
  induction t with
  | nil => exact List.nodup_nil
  | cons y t ih =>
    have hrest : (((items t).map next).map Prod.fst).Nodup := by
      have hmap : ((items t).map next).map Prod.fst = ((items t).map Prod.fst).map (· + 1) := by simp [next]
      rw [hmap]
      exact List.Pairwise.map _ (fun i j h he => h (Nat.succ.inj he)) ih
    cases y with
    | none => exact hrest
    | some y => exact List.nodup_cons.mpr ⟨by simp [next], hrest⟩

theorem items_take (x : α) (t : List (Option α)) : (items (take x t)).Perm ((lowest t, x) :: items t) := by
  induction t with
  | nil => exact List.Perm.refl _
  | cons y t ih =>
    cases y with
    | none => exact List.Perm.refl _
    | some y =>
      show ((0, y) :: (items (take x t)).map next).Perm ((lowest t + 1, x) :: (0, y) :: (items t).map next)
      exact ((ih.map next).cons _).trans (List.Perm.swap ..)

theorem items_free : ∀ {t : List (Option α)} {i : Nat} {x : α}, entry t i = some x →
    (items t).Perm ((i, x) :: items (free t i)) := by
  intro t
  induction t with
  | nil => intro i x h; simp at h
  | cons y t ih =>
    intro i x h
    cases i with
    | zero =>
      obtain rfl : y = some x := h
      exact List.Perm.refl _
    | succ i =>
      have hperm := (ih ((entry_succ y t i).symm.trans h)).map next
      cases y with
      | none => exact hperm
      | some y => exact (hperm.cons _).trans (List.Perm.swap ..)

theorem items_change (f : α → α) : ∀ {t : List (Option α)} {i : Nat} {x : α}, entry t i = some x →
    (items (change f t i)).Perm ((i, f x) :: items (free t i)) := by
  intro t
  induction t with
  | nil => intro i x h; simp at h
  | cons y t ih =>
    intro i x h
    cases i with
    | zero =>
      obtain rfl : y = some x := h
      exact List.Perm.refl _
    | succ i =>
      have hperm := (ih ((entry_succ y t i).symm.trans h)).map next
      cases y with
      | none => exact hperm
      | some y => exact (hperm.cons _).trans (List.Perm.swap ..)

/-! ## Who has what -/

section Holds

variable {κ : Type} (name : Nat → κ)

/-- The slots in use, by name, are those of the list. -/
def Holds (t : List (Option α)) (l : List (κ × α)) : Prop := ((items t).map fun p => (name p.1, p.2)).Perm l

variable {name} {c : κ} {l l' : List (κ × α)}

theorem Holds.perm (h : Holds name t l) (hl : l.Perm l') : Holds name t l' := h.trans hl

theorem Holds.mem (h : Holds name t l) : (c, x) ∈ l ↔ ∃ i, name i = c ∧ entry t i = some x := by
  rw [← h.mem_iff, List.mem_map]
  constructor
  · rintro ⟨⟨i, y⟩, hi, he⟩
    obtain ⟨rfl, rfl⟩ := Prod.mk.inj he
    exact ⟨i, rfl, mem_items.mp hi⟩
  · rintro ⟨i, rfl, hi⟩
    exact ⟨(i, x), mem_items.mpr hi, rfl⟩

theorem holds_take (h : Holds name t l) (x : α) : Holds name (take x t) ((name (lowest t), x) :: l) :=
  ((items_take x t).map _).trans (h.cons _)

variable (hname : Function.Injective name)
include hname

theorem Holds.once (h : Holds name t l) : (l.map Prod.fst).Nodup := by
  apply (h.map Prod.fst).nodup_iff.mp
  have hmap : ((items t).map fun p => (name p.1, p.2)).map Prod.fst = ((items t).map Prod.fst).map name := by simp
  rw [hmap]
  exact (items_once t).map hname

theorem Holds.entry (h : Holds name t ((name i, x) :: l)) : entry t i = some x := by
  obtain ⟨j, hj, he⟩ := h.mem.mp List.mem_cons_self
  rwa [← hname hj]

theorem holds_free (h : Holds name t ((name i, x) :: l)) : Holds name (free t i) l :=
  (((items_free (h.entry hname)).map _).symm.trans h).cons_inv

theorem holds_change (h : Holds name t ((name i, x) :: l)) (f : α → α) :
    Holds name (change f t i) ((name i, f x) :: l) :=
  ((items_change f (h.entry hname)).map _).trans ((holds_free hname h).cons _)

end Holds

/-! ## Owners -/

theorem entries_free : ∀ {t : List (Option α)} {i : Nat} {x : α}, entry t i = some x →
    t.reduceOption.Perm (x :: (free t i).reduceOption) := by
  intro t
  induction t with
  | nil => intro i x h; simp at h
  | cons y t ih =>
    intro i x h
    cases i with
    | zero =>
      obtain rfl : y = some x := h
      exact List.Perm.refl _
    | succ i =>
      have hperm := ih ((entry_succ y t i).symm.trans h)
      cases y with
      | none => exact hperm
      | some y =>
        show (y :: t.reduceOption).Perm (x :: y :: (free t i).reduceOption)
        exact (hperm.cons y).trans (List.Perm.swap ..)

/-- Another in its place that `f` tells no difference of. -/
theorem entries_put (f : α → β) : ∀ {t : List (Option α)} {i : Nat} {x y : α}, entry t i = some x → f y = f x →
    (t.set i (some y)).reduceOption.map f = t.reduceOption.map f := by
  intro t
  induction t with
  | nil => intro i x y h; simp at h
  | cons z t ih =>
    intro i x y h hf
    cases i with
    | zero =>
      obtain rfl : z = some x := h
      simp [hf]
    | succ i =>
      have hrest := ih ((entry_succ z t i).symm.trans h) hf
      cases z <;> simp [hrest]

theorem mem_entries : x ∈ t.reduceOption ↔ ∃ i, entry t i = some x := by
  rw [List.reduceOption_mem_iff, List.mem_iff_getElem?]
  refine exists_congr fun i => ?_
  unfold entry
  cases t[i]? with
  | none => simp
  | some y => simp

/-- If no two are told alike, each is in one place. -/
theorem entries_apart (f : α → β) (hf : (t.reduceOption.map f).Nodup) {j : Nat} (hx : entry t i = some x)
    (hy : entry t j = some y) (he : f x = f y) : i = j := by
  apply Classical.byContradiction
  intro hne
  have honce := ((entries_free hx).map f).nodup_iff.mp hf
  apply (List.nodup_cons.mp honce).1
  rw [he]
  apply List.mem_map_of_mem
  refine mem_entries.mpr ⟨j, ?_⟩
  rw [entry_free, if_neg (Ne.symm hne)]
  exact hy

/-! ## Two tables -/

/-- Which slots are in use. -/
def present (t : List (Option α)) : List Bool := t.map Option.isSome

theorem present_put : ∀ {t : List (Option α)} {i : Nat} {x : α}, entry t i = some x → ∀ y : α,
    present (t.set i (some y)) = present t := by
  intro t
  induction t with
  | nil => intro i x h; simp at h
  | cons z t ih =>
    intro i x h y
    cases i with
    | zero =>
      obtain rfl : z = some x := h
      rfl
    | succ i => exact congrArg (z.isSome :: ·) (ih ((entry_succ z t i).symm.trans h) y)

theorem present_free (t : List (Option α)) (i : Nat) : present (free t i) = (present t).set i false :=
  List.map_set

theorem present_gone : ∀ {t : List (Option α)} {i : Nat}, entry t i = none → (present t).set i false = present t := by
  intro t
  induction t with
  | nil => intro i _; rfl
  | cons z t ih =>
    intro i h
    cases i with
    | zero =>
      obtain rfl : z = none := h
      rfl
    | succ i => exact congrArg (z.isSome :: ·) (ih ((entry_succ z t i).symm.trans h))

theorem present_count (t : List (Option α)) : t.reduceOption.length = (present t).count true := by
  induction t with
  | nil => rfl
  | cons y t ih =>
    unfold present at ih ⊢
    cases y <;> simp [ih]

theorem present_entry (t : List (Option α)) (i : Nat) : (entry t i).isSome = (present t)[i]?.getD false := by
  unfold present entry
  rw [List.getElem?_map]
  cases t[i]? <;> rfl

end RedisProxy.Lib.Slots
