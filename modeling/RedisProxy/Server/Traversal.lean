/-
  RedisProxy.Server.Traversal — iterators, and the ring as a bounded queue (recycle.h).

  An iterator is a slot of its host, and the host is part of its type. A traversal is
  `FromBegin( &it )`, then the loop `for( ; !it.Eof(); it.Next() )`, which may break off after
  some elements, then `EraseUntil(it)`.

  Proved: `visit_held`, `erase_held`, what a traversal visits and what is left behind it, and
  `ring_fifo`: over every sequence of `Push`, `Pop`, `Empty`, `Full` and traversals, the
  ring of `n` slots answers what a queue of at most `n - 1` elements answers.
-/

import RedisProxy.Lib.Fifo
import RedisProxy.Lib.Runs
import RedisProxy.Server.Ring

namespace RedisProxy.Server

open Lib Lib.Runs Wire

variable {α : Type} [Inhabited α]

structure Iterator (r : Recycle α) where
  index : Nat
  index_lt : index < r.holder.length

namespace Iterator

variable {r : Recycle α}

/-- `operator*`. -/
def get (it : Iterator r) : α := r.holder.getD it.index default

def eof (it : Iterator r) : Bool := it.index = r.stop

def next (it : Iterator r) : Iterator r := ⟨r.next it.index, r.next_lt it.index⟩

end Iterator

namespace Recycle

def fromBegin (r : Recycle α) : Iterator r := ⟨r.start, r.start_lt⟩

def eraseUntil (r : Recycle α) (it : Iterator r) : Recycle α := ⟨r.holder, it.index, r.stop, it.index_lt, r.stop_lt⟩

def empty (r : Recycle α) : Bool := r.start = r.stop

def full (r : Recycle α) : Bool := r.next r.stop = r.start

end Recycle

/-- The loop of a traversal, which breaks off after `n` elements. -/
def Iterator.visit {r : Recycle α} : Nat → Iterator r → List α × Iterator r
  | 0, it => ([], it)
  | n + 1, it => if it.eof then ([], it) else (it.get :: (visit n it.next).1, (visit n it.next).2)

inductive RingOp (α : Type) where
  | push (data : α)
  | pop
  | empty
  | full
  | traverse (n : Nat)
  deriving DecidableEq, Repr

inductive RingAnswer (α : Type) where
  | error (e : Error)
  | popped (data : α)
  | bool (b : Bool)
  /-- The elements visited, and whether the iterator is at the end. -/
  | visited (l : List α) (eof : Bool)
  deriving DecidableEq, Repr

namespace Recycle

def step (r : Recycle α) : RingOp α → RingAnswer α × Recycle α
  | .push data =>
    match r.push data with
    | .ok r' => (.error .ok, r')
    | .error e => (.error e, r)
  | .pop =>
    match r.pop with
    | .ok (data, r') => (.popped data, r')
    | .error e => (.error e, r)
  | .empty => (.bool r.empty, r)
  | .full => (.bool r.full, r)
  | .traverse n =>
    let v := r.fromBegin.visit n
    (.visited v.1 v.2.eof, r.eraseUntil v.2)

/-- What a queue answers. -/
def spec {bound : Nat} (q : Fifo α bound) : RingOp α → RingAnswer α × Fifo α bound
  | .push data =>
    match q.push data with
    | some q' => (.error .ok, q')
    | none => (.error .full, q)
  | .pop =>
    match q.pop with
    | some (data, q') => (.popped data, q')
    | none => (.error .empty, q)
  | .empty => (.bool (q.items.length = 0), q)
  | .full => (.bool (q.items.length = bound), q)
  | .traverse n => (.visited (q.items.take n) (q.items.length ≤ n), q.drop n)

/-! ## Traversals -/

variable {r : Recycle α} {i : Nat}

theorem held_cut (h : i ≤ r.size) :
    r.held.drop i = (List.range (r.size - i)).map fun j => r.holder.getD (r.slot (i + j)) default := by
  obtain ⟨m, hm⟩ := Nat.exists_eq_add_of_le h
  rw [held, hm, List.range_add, List.map_append, List.drop_left' (by rw [List.length_map, List.length_range]),
    List.map_map, Nat.add_sub_cancel_left]
  rfl

theorem held_drop (h : i < r.size) : r.held.drop i = r.holder.getD (r.slot i) default :: r.held.drop (i + 1) := by
  obtain ⟨m, hm⟩ := Nat.exists_eq_add_of_lt h
  rw [held_cut (Nat.le_of_lt h), held_cut h, show r.size - i = (r.size - (i + 1)) + 1 by omega,
    List.range_succ_eq_map, List.map_cons, List.map_map]
  congr 1
  refine List.map_congr_left fun j _ => ?_
  show r.holder.getD (r.slot (i + (j + 1))) default = _
  rw [show i + (j + 1) = i + 1 + j by omega]

/-- From the `i`th element on: the elements in order, up to the one it breaks off behind or the end. -/
theorem visit_held (n : Nat) : ∀ (i : Nat) (it : Iterator r), i ≤ r.size → it.index = r.slot i →
    (it.visit n).1 = (r.held.drop i).take n ∧ (it.visit n).2.index = r.slot (min (i + n) r.size) := by
  induction n with
  | zero =>
    intro i it hi hit
    rw [Nat.add_zero, Nat.min_eq_left hi]
    exact ⟨rfl, hit⟩
  | succ n ih =>
    intro i it hi hit
    have heof : it.eof = true ↔ i = r.size := by
      rw [Iterator.eof, decide_eq_true_eq, hit, slot_stop_iff r hi]
    rw [Iterator.visit]
    by_cases hend : i = r.size
    · rw [if_pos (heof.mpr hend), hit, hend, List.drop_of_length_le (Nat.le_of_eq r.length_held),
        Nat.min_eq_right (Nat.le_add_right _ _)]
      exact ⟨rfl, rfl⟩
    · have hlt : i < r.size := Nat.lt_of_le_of_ne hi hend
      have hnext : it.next.index = r.slot (i + 1) := by
        rw [← next_slot, ← hit]
        rfl
      obtain ⟨hseen, hat⟩ := ih (i + 1) it.next hlt hnext
      rw [if_neg (mt heof.mp hend), held_drop hlt, List.take_succ_cons, hseen, hat]
      refine ⟨?_, by rw [show i + 1 + n = i + (n + 1) by omega]⟩
      rw [Iterator.get, hit]

/-- `EraseUntil` removes what comes before the iterator. -/
theorem erase_held (it : Iterator r) (hi : i ≤ r.size) (hit : it.index = r.slot i) :
    (r.eraseUntil it).held = r.held.drop i := by
  have h1 := r.start_lt
  have h2 := r.stop_lt
  have h3 := r.size_lt
  have hslot : ∀ j, (r.eraseUntil it).slot j = r.slot (i + j) := by
    intro j
    show (it.index + j) % r.holder.length = (r.start + (i + j)) % r.holder.length
    rw [hit, slot, Nat.mod_add_mod, Nat.add_assoc]
  have hsize : (r.eraseUntil it).size = r.size - i := by
    have hs := slot_eq r (show i < r.holder.length by omega)
    rw [size_eq] at hi ⊢
    rw [size_eq]
    show (if it.index ≤ r.stop then r.stop - it.index else r.stop + r.holder.length - it.index) = _
    rw [hit]
    split at hs <;> split at hi <;> split <;> omega
  rw [held_cut hi, held, hsize]
  refine List.map_congr_left fun j _ => ?_
  rw [hslot]
  rfl

/-! ## The queue -/

/-- The queue of what the ring holds. -/
structure Shows {bound : Nat} (r : Recycle α) (q : Fifo α bound) : Prop where
  items : r.held = q.items
  slots : r.holder.length = bound + 1

variable {bound : Nat} {q : Fifo α bound}

theorem push_shows (hq : r.Shows q) (data : α) :
    (r.step (.push data)).1 = (spec q (.push data)).1 ∧ (r.step (.push data)).2.Shows (spec q (.push data)).2 := by
  have hlen : r.held.length = q.items.length := congrArg List.length hq.items
  have hslots := hq.slots
  rw [step, spec]
  rcases r.push_held data with ⟨hfull, hp⟩ | ⟨hroom, r', hp, hheld, hholder⟩
  · rw [hp, Fifo.push_full data (by omega)]
    exact ⟨rfl, hq⟩
  · obtain ⟨q', hpush, hitems⟩ := Fifo.push_room (q := q) data (by omega)
    rw [hp, hpush]
    exact ⟨rfl, by rw [hheld, hq.items, hitems], hholder.trans hq.slots⟩

theorem pop_shows (hq : r.Shows q) :
    (r.step .pop).1 = (spec q .pop).1 ∧ (r.step .pop).2.Shows (spec q .pop).2 := by
  rw [step, spec]
  rcases r.pop_held with ⟨hnone, hp⟩ | ⟨data, r', hp, hheld, hholder⟩
  · rw [hp, Fifo.pop_nil (hq.items.symm.trans hnone)]
    exact ⟨rfl, hq⟩
  · obtain ⟨q', hpop, hitems⟩ := Fifo.pop_cons (q := q) (hq.items.symm.trans hheld)
    rw [hp, hpop]
    exact ⟨rfl, hitems.symm, hholder.trans hq.slots⟩

theorem traverse_shows (hq : r.Shows q) (n : Nat) :
    (r.step (.traverse n)).1 = (spec q (.traverse n)).1 ∧ (r.step (.traverse n)).2.Shows (spec q (.traverse n)).2 := by
  have hlen : r.size = q.items.length := by rw [← length_held, hq.items]
  obtain ⟨hseen, hat⟩ := visit_held n 0 r.fromBegin (Nat.zero_le _) r.slot_zero.symm
  rw [Nat.zero_add] at hat
  have hle : min n r.size ≤ r.size := Nat.min_le_right _ _
  have herase := erase_held (r.fromBegin.visit n).2 hle hat
  have heof : (r.fromBegin.visit n).2.eof = decide (q.items.length ≤ n) := by
    rw [Iterator.eof, decide_eq_decide, hat, slot_stop_iff r hle]
    omega
  refine ⟨?_, ?_, hq.slots⟩
  · show RingAnswer.visited _ _ = _
    rw [hseen, heof, List.drop_zero, hq.items]
    rfl
  · show (r.eraseUntil (r.fromBegin.visit n).2).held = q.items.drop n
    rw [herase, hq.items]
    by_cases hn : n ≤ r.size
    · rw [Nat.min_eq_left hn]
    · rw [Nat.min_eq_right (Nat.le_of_not_le hn), List.drop_of_length_le (by omega), List.drop_of_length_le (by omega)]

theorem step_shows (r : Recycle α) (q : Fifo α bound) (op : RingOp α) (hq : r.Shows q) :
    (r.step op).1 = (spec q op).1 ∧ (r.step op).2.Shows (spec q op).2 := by
  have hlen : r.held.length = q.items.length := congrArg List.length hq.items
  have hslots := hq.slots
  cases op with
  | push data => exact push_shows hq data
  | pop => exact pop_shows hq
  | traverse n => exact traverse_shows hq n
  | empty =>
    refine ⟨congrArg RingAnswer.bool ?_, hq⟩
    rw [empty, decide_eq_decide, empty_iff, hq.items, List.length_eq_zero_iff]
  | full =>
    refine ⟨congrArg RingAnswer.bool ?_, hq⟩
    rw [full, decide_eq_decide, full_iff]
    omega

/-- An operation that is refused. -/
def RingAnswer.Refused : RingAnswer α → Prop
  | .error e => e ≠ .ok
  | _ => False

theorem refused_same (r : Recycle α) (op : RingOp α) (h : RingAnswer.Refused (r.step op).1) : (r.step op).2 = r := by
  cases op with
  | push data =>
    rw [step] at h ⊢
    split at h
    · exact absurd rfl h
    · rfl
  | pop =>
    rw [step] at h ⊢
    split at h
    · exact absurd h id
    · rfl
  | empty => rfl
  | full => rfl
  | traverse n => exact absurd h id

/-- Over every sequence of operations the ring of `n` slots answers what a queue of at most `n - 1`
    elements does, and holds what that holds; an operation that is refused leaves a ring as it is. -/
theorem ring_fifo (n : Nat) (hn : 0 < n) (ops : List (RingOp α)) :
    answers step (create n hn) ops = answers spec (Fifo.nothing : Fifo α (n - 1)) ops ∧
    (ops.foldl (fun r op => (step r op).2) (create n hn)).held =
      (ops.foldl (fun q op => (spec q op).2) (Fifo.nothing : Fifo α (n - 1))).items ∧
    ∀ (r : Recycle α) (op : RingOp α), RingAnswer.Refused (r.step op).1 → (r.step op).2 = r := by
  have hstart : (create n hn : Recycle α).Shows (Fifo.nothing : Fifo α (n - 1)) :=
    ⟨held_create n hn, by rw [create, List.length_replicate]; omega⟩
  obtain ⟨hsame, hend⟩ := answers_simulated step_shows ops _ _ hstart
  exact ⟨hsame, hend.items, refused_same⟩

/-- Three slots: the third push is refused, the next goes to the last slot and round. -/
theorem ring_fifo_wrapped :
    answers step (create 3 (by decide) : Recycle Nat)
        [.push 1, .push 2, .push 3, .pop, .push 4, .traverse 1, .full, .push 5, .traverse 9, .empty] =
      [.error .ok, .error .ok, .error .full, .popped 1, .error .ok, .visited [2] false, .bool false, .error .ok,
        .visited [4, 5] true, .bool true] :=
  (ring_fifo 3 (by decide) _).1.trans rfl

end Recycle

end RedisProxy.Server
