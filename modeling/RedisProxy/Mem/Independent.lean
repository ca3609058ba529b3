/-
  RedisProxy.Mem.Independent — copied buffers as values (buffer.cpp).

  A copy shares its block. `AppendCapacity` and `Clear` ask whether somebody else has the block before
  they touch it, and `Offset` touches nothing. `Append( data, size )` asks only when there is no room;
  where there is, it writes behind the buffer's bytes, and a slice of the block that goes on there sees it.

  Proved: `independent_iff`: over every run the four leave the other buffers' contents alone exactly
  if what `Append` writes where there is room nobody else looks at, or finds there already (`Unseen`).
-/

import RedisProxy.Mem.Joined
import RedisProxy.Mem.Store

namespace RedisProxy.Mem

open Lib Lib.Runs Lib.Cells Lib.Decimal Wire

variable {h : Heap} {b x : Buffer} {live rest : List Buffer} {a n : Nat} {l : Bytes}

namespace Buffer

/-- Of the place where `l` would go, behind `b`, `x` sees nothing, or `l`. -/
def Blind (h : Heap) (x b : Buffer) (l : Bytes) : Prop :=
  ∀ a, b.data = some a → x.data = some a → ∀ k < l.length, x.offset ≤ b.size + k → b.size + k < x.size →
    l[k]? = some (h.cellsAt a (b.size + k))

/-- The size of the block `AppendCapacity( n )` asks for. -/
def wanted (b : Buffer) (n : Nat) : Nat :=
  if b.data = none then word (n + b.size) else word (word (n + b.size) + 2 ^ 64 - b.offset)

/-- A `uint32_t` holds it, and the header. -/
def Sized (h : Heap) (b : Buffer) (n : Nat) : Prop := b.Asks h n → b.wanted n + 4 < 2 ^ 32

end Buffer

/-! ## One buffer, and the others of the heap -/

theorem same_allocRef (hs : h.Sane) (hx : Exact h live) {size : Nat} {p : Option Nat}
    (hp : h.allocRef size = (p, h')) : Same h h' live := by
  intro a ha
  have hsame := sameAt_allocRef (h := h) (a := a) (fun he => by rw [he, owners_next hs hx] at ha; omega) size
  rwa [hp] at hsame

/-- The others keep what they have; a buffer that had no room has a block of its own then. -/
theorem grow_apart (hs : h.Sane) (hx : Exact h (b :: rest)) (n : Nat) :
    Same h (b.appendCapacity h n).2.1 rest ∧
      (b.capacity h < word (n + b.size) → (b.appendCapacity h n).1 = .ok → Own (b.appendCapacity h n).2.2 rest) := by
  have hg := b.grows h n
  generalize b.appendCapacity h n = r at hg ⊢
  cases hg with
  | room hfit => exact ⟨.refl h rest, fun hlt => absurd hlt (Nat.not_lt_of_le hfit)⟩
  | @place a _ hd hcount _ =>
    obtain ⟨blk, hb⟩ := Option.ne_none_iff_exists'.mp (hx.live b List.mem_cons_self a hd)
    rw [Heap.refCount_live hb, hx.counts a blk hb, owners_cons, if_pos hd] at hcount
    have hnone : owners rest a = 0 := by omega
    refine ⟨same_write hnone 0 _, fun _ _ c hc => ?_⟩
    obtain rfl := Option.some.inj hc
    exact hnone
  | @move a _ h' _ hd _ ha =>
    have hsame := same_allocRef hs hx ha
    obtain ⟨rfl, hnew, hx'⟩ := exact_granted hx hs ha
    have hnone := owners_next hs hx
    have hw := exact_write (hx' ⟨some h.next, b.used, 0⟩ rfl) hnew 0 (b.contents h')
    have hsame2 : Same h' (h'.write h.next 0 (b.contents h')) (b :: rest) := same_write hnone 0 _
    have hsame3 : Same (h'.write h.next 0 (b.contents h'))
        ((h'.write h.next 0 (b.contents h')).release b.data) rest :=
      fun c hc => sameAt_release ((hs.allocated ha).write _ _ _) (exact_perm (List.Perm.swap b _ rest) hw)
        (Nat.lt_of_lt_of_le hc (by rw [owners_cons]; exact Nat.le_add_right _ _))
    rw [hd] at hsame3
    refine ⟨((hsame.trans hsame2).tail).trans hsame3, fun _ _ c hc => ?_⟩
    obtain rfl := Option.some.inj hc
    rw [owners_cons] at hnone
    omega
  | first _ hd ha =>
    have hrest := (exact_null hd).mp hx
    obtain ⟨rfl, _⟩ := exact_granted hrest hs ha
    refine ⟨same_allocRef hs hrest ha, fun _ _ c hc => ?_⟩
    obtain rfl := Option.some.inj hc
    exact owners_next hs hrest
  | refused _ ha => exact ⟨(same_allocRef hs hx ha).tail, fun _ hno => Error.noConfusion hno⟩

theorem clear_apart (hs : h.Sane) (hx : Exact h (b :: rest)) : Same h (b.clear h).1 rest := by
  unfold Buffer.clear
  cases hd : b.data with
  | none => exact .refl h rest
  | some a =>
    dsimp only
    split
    · have hsame : Same h (h.release b.data) rest := fun c hc => sameAt_release hs hx hc
      rwa [hd] at hsame
    · exact .refl h rest

/-- What is written behind `b`, seen by another. -/
theorem tail_seen (hx : Exact h (b :: rest)) (l : Bytes) :
    x.contents (b.writeTail h l) = x.contents h ↔ x.Blind h b l := by
  unfold Buffer.writeTail
  cases hd : b.data with
  | none => exact iff_of_true rfl fun a ha => by rw [hd] at ha; cases ha
  | some a =>
    have hlive := hx.live b List.mem_cons_self a hd
    dsimp only
    by_cases hxa : x.data = some a
    · have hused : x.used = x.size - x.offset := rfl
      unfold Buffer.contents
      rw [hxa]
      dsimp only
      rw [cellsAt_write hlive, cells_fill_iff]
      constructor
      · intro hsee c hc _ k hk h1 h2
        obtain rfl : a = c := Option.some.inj (hd.symm.trans hc)
        exact hsee k hk h1 (by omega)
      · intro hblind k hk h1 h2
        exact hblind a hd hxa k hk h1 (by omega)
    · refine iff_of_true ?_ fun c hc hxc => ?_
      · unfold Buffer.contents
        cases hxd : x.data with
        | none => rfl
        | some c =>
          have hca : c ≠ a := fun he => hxa (hxd.trans (congrArg some he))
          exact congrArg (fun f => cells f x.offset x.used) (sameAt_write hca b.size l).cells
      · rw [hd] at hc
        exact absurd (hxc.trans hc.symm) hxa

/-- Another keeps its contents over `Append( data, size )` if there is no room, or it sees nothing of it. -/
theorem bytes_apart (hs : h.Sane) (hx : Exact h (b :: rest)) (hm : x ∈ rest) (l : Bytes) :
    x.contents (b.appendBytes h l).2.1 = x.contents h ↔
      (word (l.length + b.size) ≤ b.capacity h → x.Blind h b l) := by
  unfold Buffer.appendBytes
  rw [grown_eq]
  by_cases hfit : word (l.length + b.size) ≤ b.capacity h
  · have he : b.appendCapacity h l.length = (.ok, h, b) := by
      unfold Buffer.appendCapacity
      dsimp only
      rw [if_pos hfit]
    rw [he]
    exact (tail_seen hx l).trans ⟨fun hblind _ => hblind, fun hblind => hblind hfit⟩
  · obtain ⟨hsame, hown⟩ := grow_apart hs hx l.length
    refine iff_of_true ?_ fun hle => absurd hle hfit
    rcases he : b.appendCapacity h l.length with ⟨e, h', b'⟩
    rw [he] at hsame hown
    cases e with
    | ok =>
      have hown : Own b' rest := hown (Nat.lt_of_not_le hfit) rfl
      have htail : Same h' (b'.writeTail h' l) rest := by
        unfold Buffer.writeTail
        cases hd : b'.data with
        | none => exact .refl h' rest
        | some a => exact same_write (hown a hd) b'.size l
      exact (hsame.trans htail).contents hm
    | _ => exact hsame.contents hm

namespace StoreOp

/-- The buffer it changes, of `Append( data, size )`, `AppendCapacity`, `Offset` and `Clear`. -/
def target : StoreOp → Option Nat
  | .appendBytes i _ => some i
  | .appendCapacity i _ => some i
  | .offset i _ _ => some i
  | .clear i => some i
  | _ => none

end StoreOp

namespace Store

def bytes (s : Store) (j : Nat) : Option Bytes := (s.get j).map (Buffer.contents s.heap)

/-- The operation leaves the contents of every buffer alone but those of its own. -/
def Independent (s : Store) (op : StoreOp) : Prop :=
  ∀ i, op.target = some i → ∀ j, j ≠ i → (s.step op).bytes j = s.bytes j

/-- What `Append( data, size )` writes where there is room nobody else sees. -/
def Unseen (s : Store) : StoreOp → Prop
  | .appendBytes i l => ∀ b, s.get i = some b → word (l.length + b.size) ≤ b.capacity s.heap →
      ∀ j x, j ≠ i → s.get j = some x → x.Blind s.heap b l
  | _ => True

/-- The blocks asked for can be had. -/
def Sized (s : Store) : StoreOp → Prop
  | .ofBytes l => l.length + 4 < 2 ^ 32
  | .append i j n => ∀ b src, s.get i = some b → s.get j = some src → b.data ≠ none → b.data ≠ src.data →
      b.Sized s.heap (src.portion n)
  | .appendBytes i l => ∀ b, s.get i = some b → b.Sized s.heap l.length
  | .appendCapacity i n => ∀ b, s.get i = some b → b.Sized s.heap n
  | _ => True

variable {s : Store} {i j : Nat} {v : Option Buffer}

theorem get_set (h : Heap) (v : Option Buffer) (hj : j ≠ i) : (s.set i h v).get j = s.get j := by
  show (s.bufs.set i v).getD j none = s.bufs.getD j none
  rw [List.getD_eq_getElem?_getD, List.getD_eq_getElem?_getD, List.getElem?_set_ne (Ne.symm hj)]

theorem bytes_set (hj : j ≠ i) :
    (s.set i h v).bytes j = s.bytes j ↔ ∀ x, s.get j = some x → x.contents h = x.contents s.heap := by
  unfold bytes
  rw [get_set h v hj]
  cases s.get j with
  | none =>
    refine iff_of_true rfl fun x hx => ?_
    cases hx
  | some x =>
    constructor
    · intro he y hy
      obtain rfl := Option.some.inj hy
      exact Option.some.inj he
    · intro hall
      exact congrArg some (hall x rfl)

/-- Buffer `i`, and the others. -/
theorem others_mem (hb : s.get i = some b) :
    ∃ rest, s.live.Perm (b :: rest) ∧ ∀ j x, j ≠ i → s.get j = some x → x ∈ rest := by
  obtain ⟨rest, hp, hset⟩ := live_split hb
  refine ⟨rest, hp, fun j x hj hx => ?_⟩
  rw [← get_set s.heap none hj] at hx
  exact (hset s.heap none).mem_iff.mp (mem_live hx)

theorem independent_target {op : StoreOp} (ht : op.target = some i) :
    s.Independent op ↔ ∀ j, j ≠ i → (s.step op).bytes j = s.bytes j := by
  unfold Independent
  constructor
  · intro hall
    exact hall i ht
  · intro hall c hc
    obtain rfl : i = c := Option.some.inj (ht.symm.trans hc)
    exact hall

/-- An operation on buffer `i` after which the others see what they saw. -/
theorem bytes_same (hx : s.Counted) (hb : s.get i = some b)
    (hsame : ∀ rest, Exact s.heap (b :: rest) → Same s.heap h rest) (hj : j ≠ i) :
    (s.set i h v).bytes j = s.bytes j := by
  obtain ⟨rest, hp, hrest⟩ := others_mem hb
  exact (bytes_set hj).mpr fun x hget => (hsame rest (exact_perm hp hx)).contents (hrest j x hj hget)

/-! ## One operation -/

theorem unseen_bytes (hs : s.heap.Sane) (hx : s.Counted) (i : Nat) (l : Bytes) :
    s.Unseen (.appendBytes i l) ↔ s.Independent (.appendBytes i l) := by
  rw [independent_target rfl]
  simp only [Unseen, step]
  cases hi : s.get i with
  | none =>
    refine iff_of_true (fun b hb => ?_) fun _ _ => rfl
    cases hb
  | some b =>
    obtain ⟨rest, hp, hrest⟩ := others_mem hi
    have hexact := exact_perm hp hx
    constructor
    · intro hunseen j hj
      refine (bytes_set hj).mpr fun x hget => ?_
      exact (bytes_apart hs hexact (hrest j x hj hget) l).mpr fun hfit => hunseen b rfl hfit j x hj hget
    · intro hsame b' hb hfit j x hj hget
      obtain rfl := Option.some.inj hb
      exact (bytes_apart hs hexact (hrest j x hj hget) l).mp ((bytes_set hj).mp (hsame j hj) x hget) hfit

theorem unseen_iff (hs : s.heap.Sane) (hx : s.Counted) (op : StoreOp) : s.Unseen op ↔ s.Independent op := by
  cases op with
  | appendBytes i l => exact unseen_bytes hs hx i l
  | appendCapacity i n =>
    refine iff_of_true trivial ((independent_target rfl).mpr fun j hj => ?_)
    simp only [step]
    cases hi : s.get i with
    | none => rfl
    | some b => exact bytes_same hx hi (fun rest hexact => (grow_apart hs hexact n).1) hj
  | offset i start length =>
    refine iff_of_true trivial ((independent_target rfl).mpr fun j hj => ?_)
    simp only [step]
    cases hi : s.get i with
    | none => rfl
    | some b => exact bytes_same hx hi (fun rest _ => .refl _ rest) hj
  | clear i =>
    refine iff_of_true trivial ((independent_target rfl).mpr fun j hj => ?_)
    simp only [step]
    cases hi : s.get i with
    | none => rfl
    | some b => exact bytes_same hx hi (fun rest hexact => clear_apart hs hexact) hj
  | _ =>
    refine iff_of_true trivial fun i hi => ?_
    cases hi

/-! ## Any sequence of operations -/

/-- Where the counts stay exact and the blocks asked for can be had, the buffers are independent exactly
    as long as what is appended where there is room nobody else sees. -/
theorem independent_iff (supply : Nat → Option (Nat → Byte)) {ops : List StoreOp}
    (hsafe : Each step (fun s op => s.Safe op ∧ s.Sized op) (start supply) ops) :
    Each step Unseen (start supply) ops ↔ Each step Independent (start supply) ops := by
  have hkeep : ∀ s op, s.heap.Sane ∧ s.Counted → s.Safe op ∧ s.Sized op → (step s op).heap.Sane ∧ (step s op).Counted :=
    fun s op hw hsafe => ⟨sane_step hw.1 op, (safe_iff hw.1 hw.2 op).mp hsafe.1⟩
  exact each_congr hkeep (fun s op hw _ => unseen_iff hw.1 hw.2 op) ops (start supply)
    ⟨Heap.sane_start supply, counted_start supply⟩ hsafe

/-- `abc` copied, and `x` appended to the copy: the block is full, so it goes to another. -/
theorem independent_iff_full :
    let ops := [StoreOp.ofBytes [97, 98, 99], .copy 0, .appendBytes 1 [120]]
    let s := start fun _ => some fun _ => 0
    Each step (fun s op => s.Safe op ∧ s.Sized op) s ops ∧
      (Each step Unseen s ops ↔ Each step Independent s ops) := by
  have hsafe : Each step (fun s op => s.Safe op ∧ s.Sized op) (start fun _ => some fun _ => 0)
      [StoreOp.ofBytes [97, 98, 99], .copy 0, .appendBytes 1 [120]] := by
    refine ⟨⟨trivial, show 3 + 4 < 2 ^ 32 by norm_num⟩, ⟨fun src hsrc a ha => ?_, trivial⟩,
      ⟨trivial, fun b hb _ => ?_⟩, trivial⟩
    · cases hsrc
      cases ha
      decide
    · cases hb
      decide
  exact ⟨hsafe, independent_iff _ hsafe⟩

/-- `abc` copied and the copy cut to `a`: there is room behind it, and `x` goes where the `b` is. -/
theorem original_overwritten :
    ¬ ∀ (supply : Nat → Option (Nat → Byte)) (ops : List StoreOp),
      Each step (fun s op => s.Safe op ∧ s.Sized op) (start supply) ops → Each step Independent (start supply) ops := by
  intro hall
  have heach := hall (fun _ => some fun _ => 0)
    [.ofBytes [97, 98, 99], .copy 0, .offset 1 0 (-2), .appendBytes 1 [120]] ?_
  · have hsame := heach.2.2.2.1 1 rfl 0 (by decide)
    exact absurd hsame (by decide)
  · refine ⟨⟨trivial, show 3 + 4 < 2 ^ 32 by norm_num⟩, ⟨fun src hsrc a ha => ?_, trivial⟩, ⟨trivial, trivial⟩,
      ⟨trivial, fun b hb _ => ?_⟩, trivial⟩
    · cases hsrc
      cases ha
      decide
    · cases hb
      decide

end Store

end RedisProxy.Mem
