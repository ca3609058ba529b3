/-
  RedisProxy.Mem.Store — any number of buffers over one heap.

  The buffers are variables: one that is constructed gets the next place, one that is
  destroyed leaves its place empty. An operation that names an empty place is not one of
  the program and does nothing.

  Proved: `counts_exact`, for every sequence of operations: the reference counts are exact
  in every state if and only if every operation is `Safe`. The three that are not: a
  block's only owner assigned to itself (`operator=` drops the reference before it takes
  it), a null buffer appended to a null one (`Append` calls `IncrRef` unasked), and one
  owner of a block more than a `uint32_t` counts.
-/

import RedisProxy.Mem.Owners

namespace RedisProxy.Mem

open Lib Lib.Runs Lib.Decimal Wire

structure Store where
  heap : Heap
  bufs : List (Option Buffer)

inductive StoreOp where
  | default
  | ofBytes (l : Bytes)
  | copy (j : Nat)
  | assign (i j : Nat)
  | append (i j n : Nat)
  | appendBytes (i : Nat) (l : Bytes)
  | appendCapacity (i n : Nat)
  | offset (i : Nat) (start length : Int)
  | clear (i : Nat)
  | destroy (i : Nat)
  deriving DecidableEq, Repr

namespace Store

def start (supply : Nat → Option (Nat → Byte)) : Store := ⟨.start supply, []⟩

def live (s : Store) : List Buffer := s.bufs.filterMap id

def get (s : Store) (i : Nat) : Option Buffer := s.bufs.getD i none

def set (s : Store) (i : Nat) (h : Heap) (b : Option Buffer) : Store := ⟨h, s.bufs.set i b⟩

def add (s : Store) (h : Heap) (b : Option Buffer) : Store := ⟨h, s.bufs ++ [b]⟩

def step (s : Store) : StoreOp → Store
  | .default => s.add s.heap (some .null)
  | .ofBytes l => s.add (Buffer.ofBytes s.heap l).2 (Buffer.ofBytes s.heap l).1
  | .copy j =>
    match s.get j with
    | none => s
    | some src => s.add (Buffer.copy s.heap src).1 (some (Buffer.copy s.heap src).2)
  | .assign i j =>
    match s.get i, s.get j with
    | some b, some src => s.set i (b.assign s.heap src).1 (some (b.assign s.heap src).2)
    | _, _ => s
  | .append i j n =>
    match s.get i, s.get j with
    | some b, some src => s.set i (b.append s.heap src n).2.1 (some (b.append s.heap src n).2.2)
    | _, _ => s
  | .appendBytes i l =>
    match s.get i with
    | none => s
    | some b => s.set i (b.appendBytes s.heap l).2.1 (some (b.appendBytes s.heap l).2.2)
  | .appendCapacity i n =>
    match s.get i with
    | none => s
    | some b => s.set i (b.appendCapacity s.heap n).2.1 (some (b.appendCapacity s.heap n).2.2)
  | .offset i start length =>
    match s.get i with
    | none => s
    | some b => s.set i s.heap (some (b.offsetBy start length))
  | .clear i =>
    match s.get i with
    | none => s
    | some b => s.set i (b.clear s.heap).1 (some (b.clear s.heap).2)
  | .destroy i =>
    match s.get i with
    | none => s
    | some b => s.set i (b.destroy s.heap) none

/-- The counts of the heap are those of the buffers. -/
def Counted (s : Store) : Prop := Exact s.heap s.live

/-- Buffer `j` may become one more owner of its block. -/
def Room (s : Store) (src : Buffer) : Prop := ∀ a, src.data = some a → owners s.live a + 1 < 2 ^ 32

/-- What an operation must meet so that the counts stay exact. -/
def Safe (s : Store) : StoreOp → Prop
  | .copy j => ∀ src, s.get j = some src → s.Room src
  | .assign i j => ∀ b src, s.get i = some b → s.get j = some src →
      ∀ a, src.data = some a →
        if b.data = some a then 1 < owners s.live a else owners s.live a + 1 < 2 ^ 32
  | .append i j n => ∀ b src, s.get i = some b → s.get j = some src →
      b.data = none → (n = 0 ∨ n ≤ src.used) → src.data ≠ none ∧ s.Room src
  | _ => True

/-! ## The buffers apart from one -/

variable {s : Store} {i j : Nat} {b : Buffer} {rest : List Buffer} {h : Heap} {v : Option Buffer}

theorem live_add (h : Heap) (b : Option Buffer) : ((s.add h b).live).Perm (b.toList ++ s.live) := by
  have he : (s.add h b).live = s.live ++ b.toList := by
    cases b <;> simp [add, live]
  rw [he]
  exact List.perm_append_comm

/-- Buffer `i` and the others. -/
theorem live_split (hb : s.get i = some b) :
    ∃ rest, s.live.Perm (b :: rest) ∧ ∀ h v, ((s.set i h v).live).Perm (v.toList ++ rest) := by
  have hi : s.bufs[i]? = some (some b) := by
    have hb : s.bufs.getD i none = some b := hb
    rw [List.getD_eq_getElem?_getD] at hb
    cases hg : s.bufs[i]? with
    | none => rw [hg] at hb; cases hb
    | some v => rw [hg] at hb; exact congrArg some hb
  obtain ⟨hlt, hget⟩ := List.getElem?_eq_some_iff.mp hi
  have hsplit : ∀ v, s.bufs.set i v = s.bufs.take i ++ v :: s.bufs.drop (i + 1) :=
    fun v => List.set_eq_take_append_cons_drop.trans (if_pos hlt)
  have hlive : ∀ h v, (s.set i h v).live =
      (s.bufs.take i).filterMap id ++ (v.toList ++ (s.bufs.drop (i + 1)).filterMap id) := by
    intro h v
    show (s.bufs.set i v).filterMap id = _
    rw [hsplit, List.filterMap_append]
    cases v <;> simp
  refine ⟨(s.bufs.take i).filterMap id ++ (s.bufs.drop (i + 1)).filterMap id, ?_, fun h v => ?_⟩
  · have hself := hlive s.heap (some b)
    have hset : s.set i s.heap (some b) = s := by
      unfold set
      rw [← hget, List.set_getElem_self]
    rw [hset] at hself
    rw [hself]
    exact List.perm_middle
  · rw [hlive]
    exact List.perm_append_comm_assoc _ _ _

theorem mem_live (hb : s.get i = some b) : b ∈ s.live := by
  obtain ⟨rest, hp, _⟩ := live_split hb
  exact hp.mem_iff.mpr List.mem_cons_self

/-! ## One operation -/

theorem sane_step (hs : s.heap.Sane) (op : StoreOp) : (s.step op).heap.Sane := by
  cases op with
  | default => exact hs
  | ofBytes l => exact Buffer.sane_ofBytes hs l
  | copy j =>
    simp only [step]
    cases s.get j with
    | none => exact hs
    | some src => exact Buffer.sane_assign hs .null src
  | assign i j =>
    simp only [step]
    cases s.get i with
    | none => exact hs
    | some b =>
      cases s.get j with
      | none => exact hs
      | some src => exact Buffer.sane_assign hs b src
  | append i j n =>
    simp only [step]
    cases s.get i with
    | none => exact hs
    | some b =>
      cases s.get j with
      | none => exact hs
      | some src => exact Buffer.sane_append hs b src n
  | appendBytes i l =>
    simp only [step]
    cases s.get i with
    | none => exact hs
    | some b => exact Buffer.sane_appendBytes hs b l
  | appendCapacity i n =>
    simp only [step]
    cases s.get i with
    | none => exact hs
    | some b => exact Buffer.sane_grow hs b n
  | offset i start length =>
    simp only [step]
    cases s.get i with
    | none => exact hs
    | some b => exact hs
  | clear i =>
    simp only [step]
    cases s.get i with
    | none => exact hs
    | some b => exact Buffer.sane_clear hs b
  | destroy i =>
    simp only [step]
    cases s.get i with
    | none => exact hs
    | some b => exact Buffer.sane_release hs b.data

/-- What becomes of buffer `i`, the others as they were. -/
theorem counted_set (hset : ((s.set i h v).live).Perm (v.toList ++ rest)) :
    (s.set i h v).Counted ↔ Exact h (v.toList ++ rest) :=
  ⟨exact_perm hset, exact_perm hset.symm⟩

theorem counted_add : (s.add h v).Counted ↔ Exact h (v.toList ++ s.live) :=
  ⟨exact_perm (live_add h v), exact_perm (live_add h v).symm⟩

theorem assign_step (hs : s.heap.Sane) (hx : s.Counted) (i j : Nat) :
    s.Safe (.assign i j) ↔ (s.step (.assign i j)).Counted := by
  simp only [Safe, step]
  cases hi : s.get i with
  | none => exact ⟨fun _ => hx, fun _ b src hb => (nomatch hb)⟩
  | some b =>
    cases hj : s.get j with
    | none => exact ⟨fun _ => hx, fun _ b src _ hsrc => (nomatch hsrc)⟩
    | some src =>
      obtain ⟨rest, hp, hset⟩ := live_split hi
      have hm : src ∈ b :: rest := hp.mem_iff.mp (mem_live hj)
      have hiff := exact_assign_iff hs (exact_perm hp hx) hm
      refine Iff.trans ?_ (hiff.symm.trans (counted_set (hset _ (some (b.assign s.heap src).2))).symm)
      constructor
      · intro hsafe a ha
        rw [← owners_perm hp]
        exact hsafe b src rfl rfl a ha
      · intro hsafe b' src' hb hsrc a ha
        obtain rfl := Option.some.inj hb
        obtain rfl := Option.some.inj hsrc
        rw [owners_perm hp]
        exact hsafe a ha

theorem append_step (hs : s.heap.Sane) (hx : s.Counted) (i j n : Nat) :
    s.Safe (.append i j n) ↔ (s.step (.append i j n)).Counted := by
  simp only [Safe, step]
  cases hi : s.get i with
  | none => exact ⟨fun _ => hx, fun _ b src hb => (nomatch hb)⟩
  | some b =>
    cases hj : s.get j with
    | none => exact ⟨fun _ => hx, fun _ b src _ hsrc => (nomatch hsrc)⟩
    | some src =>
      obtain ⟨rest, hp, hset⟩ := live_split hi
      have hm : src ∈ b :: rest := hp.mem_iff.mp (mem_live hj)
      have hiff := exact_append_iff hs (exact_perm hp hx) hm n
      refine Iff.trans ?_ (hiff.symm.trans (counted_set (hset _ (some (b.append s.heap src n).2.2))).symm)
      constructor
      · intro hsafe hb hn
        obtain ⟨hne, hroom⟩ := hsafe b src rfl rfl hb hn
        obtain ⟨a, ha⟩ := Option.ne_none_iff_exists'.mp hne
        exact ⟨a, ha, by rw [← owners_perm hp]; exact hroom a ha⟩
      · intro hsafe b' src' hb' hsrc hb hn
        obtain rfl := Option.some.inj hb'
        obtain rfl := Option.some.inj hsrc
        obtain ⟨a, ha, hlt⟩ := hsafe hb hn
        refine ⟨by rw [ha]; exact Option.some_ne_none a, fun c hc => ?_⟩
        rw [ha] at hc
        obtain rfl := Option.some.inj hc
        rwa [owners_perm hp]

theorem copy_step (hx : s.Counted) (j : Nat) : s.Safe (.copy j) ↔ (s.step (.copy j)).Counted := by
  simp only [Safe, step]
  cases hj : s.get j with
  | none => exact ⟨fun _ => hx, fun _ src hsrc => (nomatch hsrc)⟩
  | some src =>
    have hiff := exact_copy_iff hx (mem_live hj)
    refine Iff.trans ?_ (hiff.symm.trans (counted_add (v := some (Buffer.copy s.heap src).2)).symm)
    constructor
    · intro hsafe
      exact hsafe src rfl
    · intro hroom src' hsrc
      obtain rfl := Option.some.inj hsrc
      exact hroom

/-- The counts stay exact over an operation exactly if it is safe. -/
theorem safe_iff (hs : s.heap.Sane) (hx : s.Counted) (op : StoreOp) : s.Safe op ↔ (s.step op).Counted := by
  -- an operation on one buffer is always safe
  have hone : ∀ {i b h v}, s.get i = some b → (∀ rest, Exact s.heap (b :: rest) → Exact h (v.toList ++ rest)) →
      (True ↔ (s.set i h v).Counted) := by
    intro i b h v hb hkeep
    obtain ⟨rest, hp, hset⟩ := live_split hb
    exact ⟨fun _ => (counted_set (hset h v)).mpr (hkeep rest (exact_perm hp hx)), fun _ => trivial⟩
  have hskip : True ↔ s.Counted := ⟨fun _ => hx, fun _ => trivial⟩
  cases op with
  | copy j => exact copy_step hx j
  | assign i j => exact assign_step hs hx i j
  | append i j n => exact append_step hs hx i j n
  | default => exact ⟨fun _ => counted_add.mpr ((exact_null rfl).mpr hx), fun _ => trivial⟩
  | ofBytes l => exact ⟨fun _ => counted_add.mpr (exact_ofBytes hs hx l), fun _ => trivial⟩
  | appendBytes i l =>
    simp only [step]
    cases hi : s.get i with
    | none => exact hskip
    | some b => exact hone hi fun rest hx => exact_appendBytes hs hx l
  | appendCapacity i n =>
    simp only [step]
    cases hi : s.get i with
    | none => exact hskip
    | some b => exact hone hi fun rest hx => exact_grow hs hx n
  | offset i start length =>
    simp only [step]
    cases hi : s.get i with
    | none => exact hskip
    | some b => exact hone hi fun rest hx => (exact_same (show (b.offsetBy start length).data = b.data from rfl)).mpr hx
  | clear i =>
    simp only [step]
    cases hi : s.get i with
    | none => exact hskip
    | some b => exact hone hi fun rest hx => exact_clear hs hx
  | destroy i =>
    simp only [step]
    cases hi : s.get i with
    | none => exact hskip
    | some b => exact hone hi fun rest hx => exact_release hs hx

/-! ## Any sequence of operations -/

theorem counted_start (supply : Nat → Option (Nat → Byte)) : (start supply).Counted :=
  ⟨fun _ _ hb => (nomatch hb), fun _ hm => (nomatch hm), rfl⟩

theorem counts_exact (supply : Nat → Option (Nat → Byte)) (ops : List StoreOp) :
    Each step Safe (start supply) ops ↔ Each step (fun s op => (s.step op).Counted) (start supply) ops :=
  have hsane : ∀ s op, s.heap.Sane → (step s op).heap.Sane := fun _ op hs => sane_step hs op
  have hiff : ∀ s op, s.heap.Sane → s.Counted → (s.Safe op ↔ (step s op).Counted) :=
    fun _ op hs hx => safe_iff hs hx op
  each_exact hsane hiff ops (start supply) (Heap.sane_start supply) (counted_start supply)

/-- A buffer that owns its block alone, assigned to itself: the block is freed under it. -/
theorem self_assigned_block_is_freed :
    let s := [StoreOp.ofBytes [97], .assign 0 0].foldl step (start fun _ => some fun _ => 0)
    s.get 0 = some ⟨some 0, 1, 0⟩ ∧ (s.heap.blocks 0).isNone ∧ s.heap.strays = 1 ∧ ¬ s.Counted := by
  refine ⟨rfl, rfl, rfl, fun hx => ?_⟩
  exact absurd hx.strays (by decide)

/-- A null buffer appended to a null one: `IncrRef` of no block. -/
example : ([StoreOp.default, .default, .append 0 1 0].foldl step (start fun _ => none)).heap.strays = 1 := rfl

end Store

end RedisProxy.Mem
