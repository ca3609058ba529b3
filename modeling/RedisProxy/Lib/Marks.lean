/-
  RedisProxy.Lib.Marks — a list of those that are marked.

  The marks are kept apart from the list: where one is set its owner is appended, and where
  one is cleared it is taken out.

  Proved: `relisted`, a list that holds what is marked, once, still does after any number of
  changes; `mem_relisted`, and one whose mark does not change stays.
-/

import Mathlib.Data.List.Nodup

namespace RedisProxy.Lib.Marks

variable {α : Type} [DecidableEq α]

/-- One mark, as it was and as it is now. -/
def remark (a : α) (before after : Bool) (l : List α) : List α :=
  if before = after then l else if after then l ++ [a] else l.erase a

/-- The marks of `as`, one after the other. -/
def relist (before after : α → Bool) (as l : List α) : List α :=
  as.foldl (fun l a => remark a (before a) (after a) l) l

variable {a x : α} {l : List α}

theorem nodup_remark {before : Bool} (hl : l.Nodup) (ha : a ∈ l ↔ before = true) (after : Bool) :
    (remark a before after l).Nodup := by
  unfold remark
  split
  · exact hl
  · rename_i hne
    split
    · rename_i hafter
      refine List.nodup_append.mpr ⟨hl, List.nodup_singleton a, ?_⟩
      intro b hb c hc
      rw [List.mem_singleton.mp hc]
      rintro rfl
      exact hne ((ha.mp hb).trans hafter.symm)
    · exact hl.erase a

theorem mem_remark {before : Bool} (hl : l.Nodup) (ha : a ∈ l ↔ before = true) (after : Bool) :
    x ∈ remark a before after l ↔ if x = a then after = true else x ∈ l := by
  unfold remark
  split
  · rename_i heq
    subst heq
    split
    · rename_i hx
      rw [hx]
      exact ha
    · rfl
  · split
    · rename_i hafter
      by_cases hx : x = a
      · simp [hx, hafter]
      · simp [hx]
    · rename_i hafter
      rw [hl.mem_erase_iff]
      by_cases hx : x = a
      · simp [hx, hafter]
      · simp [hx]

theorem relisted (before after : α → Bool) (as : List α) : as.Nodup → ∀ l : List α, l.Nodup →
    (∀ a ∈ as, a ∈ l ↔ before a = true) →
      (relist before after as l).Nodup ∧
        ∀ x, x ∈ relist before after as l ↔ if x ∈ as then after x = true else x ∈ l := by
  induction as with
  | nil =>
    intro _ l hl _
    exact ⟨hl, fun x => by simp [relist]⟩
  | cons a as ih =>
    intro has l hl hmarks
    obtain ⟨hnot, has⟩ := List.nodup_cons.mp has
    have ha := hmarks a List.mem_cons_self
    obtain ⟨honce, hmem⟩ := ih has _ (nodup_remark hl ha (after a)) fun b hb => by
      have hne : b ≠ a := by
        rintro rfl
        exact hnot hb
      rw [mem_remark hl ha, if_neg hne]
      exact hmarks b (List.mem_cons_of_mem a hb)
    refine ⟨honce, ?_⟩
    intro x
    refine (hmem x).trans ?_
    rw [mem_remark hl ha]
    by_cases hx : x = a
    · simp [hx, hnot]
    · simp [hx]

theorem mem_relisted {before after : α → Bool} (hx : before x = after x) (as : List α) : ∀ l : List α,
    x ∈ l → x ∈ relist before after as l := by
  induction as with
  | nil => intro l hl; exact hl
  | cons a as ih =>
    intro l hl
    apply ih
    show x ∈ remark a (before a) (after a) l
    unfold remark
    split
    · exact hl
    · rename_i hne
      split
      · exact List.mem_append_left _ hl
      · have hxa : x ≠ a := by
          rintro rfl
          exact hne hx
        exact (List.mem_erase_of_ne hxa).mpr hl

end RedisProxy.Lib.Marks
