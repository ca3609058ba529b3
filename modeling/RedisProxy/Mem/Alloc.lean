/-
  RedisProxy.Mem.Alloc — the allocator, header by header (mem_alloc.h, mem_alloc.cpp).

  What `malloc` gives out is a chunk of so many bytes. `Alloc` puts the size it was asked for in
  the first four and returns the fifth; `AllocRef` asks it for four more, puts a count of 1 there
  and returns the ninth. A size is converted to a `uint32_t` at each of the two calls.

  A pointer is a place in a chunk, perhaps outside of it. A store or a copy that leaves its chunk
  goes to memory the program does not own: it is counted (`strays`) and changes nothing else; a
  load there is 0. A chunk freed is never given out again.

  Proved: `exact_iff`, for which sizes `AllocRef` gets what it says it has; `reallocated_iff`, when
  `ReallocRef` keeps the bytes; `Mem.Heap` is what is left of an arena when the headers are
  read (`view_allocRef`, `view_incrRef`, `view_descRef`).
-/

import RedisProxy.Lib.Words
import RedisProxy.Mem.Heap

namespace RedisProxy.Mem

open Lib.Cells Lib.Decimal Lib.Words

structure Chunk where
  size : Nat
  bytes : Nat → Byte

structure Arena where
  chunks : Nat → Option Chunk
  next : Nat
  supply : Nat → Option (Nat → Byte)
  strays : Nat

structure Ptr where
  chunk : Nat
  pos : Int
  deriving DecidableEq, Repr

namespace Ptr

def add (p : Ptr) (n : Int) : Ptr := ⟨p.chunk, p.pos + n⟩

end Ptr

namespace Arena

def start (supply : Nat → Option (Nat → Byte)) : Arena := ⟨fun _ => none, 0, supply, 0⟩

def put (m : Arena) (a : Nat) (c : Option Chunk) : Arena := { m with chunks := Function.update m.chunks a c }

def stray (m : Arena) : Arena := { m with strays := m.strays + 1 }

/-- The chunk that has `n` bytes from `p` on, and where in it they are. -/
def at? (m : Arena) (p : Ptr) (n : Nat) : Option (Chunk × Nat) :=
  match m.chunks p.chunk with
  | none => none
  | some c => if 0 ≤ p.pos ∧ p.pos + n ≤ c.size then some (c, p.pos.toNat) else none

def store (m : Arena) (p : Ptr) (l : Bytes) : Arena :=
  match m.at? p l.length with
  | none => m.stray
  | some (c, i) => m.put p.chunk (some { c with bytes := fill c.bytes i l })

/-- `*(uint32_t *)(p)`. -/
def load32 (m : Arena) (p : Ptr) : Nat :=
  match m.at? p 4 with
  | none => 0
  | some (c, i) => getWord c.bytes i

/-- `*(uint32_t *)(p) = v`. -/
def store32 (m : Arena) (p : Ptr) (v : Nat) : Arena := m.store p (bytesOf v)

def memcpy (m : Arena) (dst src : Ptr) (n : Nat) : Arena :=
  match m.at? src n with
  | none => m.stray
  | some (c, i) => m.store dst (cells c.bytes i n)

/-! ## The C library -/

def malloc (m : Arena) (size : Nat) : Option Ptr × Arena :=
  match m.supply m.next with
  | none => (none, { m with next := m.next + 1 })
  | some junk => (some ⟨m.next, 0⟩, { m.put m.next (some ⟨size, junk⟩) with next := m.next + 1 })

/-- `free`. -/
def cfree (m : Arena) (p : Ptr) : Arena :=
  match m.at? p 0 with
  | none => m.stray
  | some (_, i) => if i = 0 then m.put p.chunk none else m.stray

/-- The bytes of a chunk in one of another size. -/
def resized (c : Chunk) (size : Nat) (junk : Nat → Byte) : Chunk :=
  ⟨size, fun j => if j < min c.size size then c.bytes j else junk j⟩

/-- `realloc`. -/
def crealloc (m : Arena) (p : Ptr) (size : Nat) : Option Ptr × Arena :=
  match m.at? p 0 with
  | none => (none, m.stray)
  | some (c, i) =>
    if i = 0 then
      match m.supply m.next with
      | none => (none, { m with next := m.next + 1 })
      | some junk =>
        (some ⟨m.next, 0⟩,
          { (m.put p.chunk none).put m.next (some (resized c size junk)) with next := m.next + 1 })
    else (none, m.stray)

/-! ## mem_alloc.cpp -/

def uint32 (n : Nat) : Nat := n % 2 ^ 32

/-- `Alloc`. -/
def alloc (m : Arena) (n : Nat) : Option Ptr × Arena :=
  let size := uint32 n
  match m.malloc (size + 4) with
  | (none, m) => (none, m)
  | (some rm, m) => (some (rm.add 4), m.store32 rm size)

/-- `Realloc`. -/
def realloc (m : Arena) (p : Ptr) (n : Nat) : Option Ptr × Arena :=
  let size := uint32 n
  match m.crealloc (p.add (-4)) (size + 4) with
  | (none, m) => (none, m)
  | (some rm, m) => (some (rm.add 4), m.store32 rm size)

/-- `Free`. -/
def free (m : Arena) (p : Ptr) : Arena := m.cfree (p.add (-4))

def getSize (m : Arena) (p : Ptr) : Nat := m.load32 (p.add (-4))

def allocRef (m : Arena) (n : Nat) : Option Ptr × Arena :=
  let size := uint32 n
  match m.alloc (size + 4) with
  | (none, m) => (none, m)
  | (some ref, m) => (some (ref.add 4), m.store32 ref 1)

def getRefCount (m : Arena) (p : Ptr) : Nat := m.load32 (p.add (-4))

def getRefSize (m : Arena) (p : Ptr) : Nat := uint32 (2 ^ 64 - 4 + m.getSize (p.add (-4)))

def incrRef (m : Arena) (p : Ptr) : Arena :=
  let ref := p.add (-4)
  m.store32 ref (uint32 (m.load32 ref + 1))

def descRef (m : Arena) (p : Ptr) : Arena :=
  let ref := p.add (-4)
  let count := uint32 (2 ^ 32 - 1 + m.load32 ref)
  let m := m.store32 ref count
  if count = 0 then m.free ref else m

/-- `ReallocRef`; where there is no memory, none for the null pointer it adds 4 to. -/
def reallocRef (m : Arena) (p : Ptr) (n : Nat) : Option Ptr × Arena :=
  let size := uint32 n
  let count := m.getRefCount p
  if count ≤ 1 then
    match m.realloc (p.add (-4)) (size + 4) with
    | (none, m) => (none, m)
    | (some ref, m) => (some (ref.add 4), m)
  else
    match (m.descRef p).allocRef size with
    | (none, m) => (none, m.stray)
    | (some q, m) =>
      -- `GetSize`, of a pointer that `AllocRef` returned
      let copySize := m.getSize p
      (some q, m.memcpy q p (if size < copySize then size else copySize))

/-! ## Places in a chunk -/

variable {m m' : Arena} {a n i : Nat} {c : Chunk} {p : Ptr}

@[simp] theorem put_same (v : Option Chunk) : (m.put a v).chunks a = v := Function.update_self _ _ _

theorem put_ne (v : Option Chunk) {d : Nat} (hne : d ≠ a) : (m.put a v).chunks d = m.chunks d :=
  Function.update_of_ne hne _ _

theorem at_chunk (hc : m.chunks a = some c) (hi : i + n ≤ c.size) : m.at? ⟨a, i⟩ n = some (c, i) := by
  unfold at?
  rw [hc]
  dsimp only
  rw [if_pos (by omega), Int.toNat_natCast]

theorem at_outside (hc : m.chunks a = some c) (hi : c.size < i + n) : m.at? ⟨a, i⟩ n = none := by
  unfold at?
  rw [hc]
  dsimp only
  rw [if_neg (by omega)]

theorem store_chunk (hc : m.chunks a = some c) {l : Bytes} (hi : i + l.length ≤ c.size) :
    m.store ⟨a, i⟩ l = m.put a (some { c with bytes := fill c.bytes i l }) := by
  unfold store
  rw [at_chunk hc hi]

theorem store_outside (hc : m.chunks a = some c) {l : Bytes} (hi : c.size < i + l.length) :
    m.store ⟨a, i⟩ l = m.stray := by
  unfold store
  rw [at_outside hc hi]

theorem store32_chunk (hc : m.chunks a = some c) (hi : i + 4 ≤ c.size) (v : Nat) :
    m.store32 ⟨a, i⟩ v = m.put a (some { c with bytes := putWord c.bytes i v }) := store_chunk hc hi

theorem load32_chunk (hc : m.chunks a = some c) (hi : i + 4 ≤ c.size) : m.load32 ⟨a, i⟩ = getWord c.bytes i := by
  unfold load32
  rw [at_chunk hc hi]

/-! ## Allocation -/

/-- A chunk given out. -/
def grant (m : Arena) (c : Chunk) : Arena := { m.put m.next (some c) with next := m.next + 1 }

@[simp] theorem grant_chunk (m : Arena) (c : Chunk) : (m.grant c).chunks m.next = some c := put_same _

theorem grant_ne (m : Arena) (c : Chunk) {d : Nat} (hne : d ≠ m.next) : (m.grant c).chunks d = m.chunks d :=
  put_ne _ hne

/-- What is put in it afterwards. -/
theorem grant_put (m : Arena) (c d : Chunk) : (m.grant c).put m.next (some d) = m.grant d := by
  unfold grant put
  simp only [Function.update_idem]

variable {junk : Nat → Byte}

theorem alloc_granted (hj : m.supply m.next = some junk) (n : Nat) :
    m.alloc n = (some ⟨m.next, 4⟩, m.grant ⟨uint32 n + 4, putWord junk 0 (uint32 n)⟩) := by
  have hm : m.malloc (uint32 n + 4) = (some ⟨m.next, 0⟩, m.grant ⟨uint32 n + 4, junk⟩) := by
    unfold malloc
    rw [hj]
    rfl
  have hstore := store32_chunk (grant_chunk m ⟨uint32 n + 4, junk⟩) (i := 0)
    (by show 0 + 4 ≤ uint32 n + 4; omega) (uint32 n)
  rw [grant_put] at hstore
  unfold alloc
  dsimp only
  rw [hm]
  exact Prod.ext rfl hstore

/-- The header of a new block: its size and its own four bytes, one owner. -/
def headed (size : Nat) (junk : Nat → Byte) : Nat → Byte := putWord (putWord junk 0 (size + 4)) 4 1

theorem headed_size {size : Nat} (hn : size + 4 < 2 ^ 32) : getWord (headed size junk) 0 = size + 4 := by
  rw [headed, putWord, getWord_before _ _ (by norm_num), getWord_put, Nat.mod_eq_of_lt hn]

theorem headed_count (size : Nat) (junk : Nat → Byte) : getWord (headed size junk) 4 = 1 := getWord_put _ 4 1

theorem cells_headed (size : Nat) (junk : Nat → Byte) {i : Nat} (hi : 8 ≤ i) (n : Nat) :
    cells (headed size junk) i n = cells junk i n := by
  rw [headed, putWord, cells_fill_after _ _ (by show 4 + 4 ≤ i; omega), putWord,
    cells_fill_after _ _ (by show 0 + 4 ≤ i; omega)]

/-- A size to which the header can be added. -/
theorem allocRef_short (hj : m.supply m.next = some junk) (hn : uint32 n + 4 < 2 ^ 32) :
    m.allocRef n = (some ⟨m.next, 8⟩, m.grant ⟨uint32 n + 8, headed (uint32 n) junk⟩) := by
  have hsize : uint32 (uint32 n + 4) = uint32 n + 4 := Nat.mod_eq_of_lt hn
  have hstore := store32_chunk (grant_chunk m ⟨uint32 n + 4 + 4, putWord junk 0 (uint32 n + 4)⟩) (i := 4)
    (by show 4 + 4 ≤ uint32 n + 4 + 4; omega) 1
  rw [grant_put] at hstore
  unfold allocRef
  dsimp only
  rw [alloc_granted hj, hsize]
  exact Prod.ext rfl hstore

/-- The header wraps the size: the chunk ends before the count. -/
theorem allocRef_long (hj : m.supply m.next = some junk) (hn : 2 ^ 32 ≤ uint32 n + 4) :
    m.allocRef n = (some ⟨m.next, 8⟩,
      (m.grant ⟨uint32 n + 4 - 2 ^ 32 + 4, putWord junk 0 (uint32 n + 4 - 2 ^ 32)⟩).stray) := by
  have hlt : uint32 n < 2 ^ 32 := Nat.mod_lt _ (by norm_num)
  have hsize : uint32 (uint32 n + 4) = uint32 n + 4 - 2 ^ 32 := by
    show (uint32 n + 4) % 2 ^ 32 = _
    omega
  have hstore := store_outside (grant_chunk m ⟨uint32 n + 4 - 2 ^ 32 + 4, putWord junk 0 (uint32 n + 4 - 2 ^ 32)⟩)
    (i := 4) (l := bytesOf 1) (by show uint32 n + 4 - 2 ^ 32 + 4 < 4 + 4; omega)
  unfold allocRef
  dsimp only
  rw [alloc_granted hj, hsize]
  exact Prod.ext rfl hstore

theorem allocRef_supplied (ha : m.allocRef n = (some p, m')) : ∃ junk, m.supply m.next = some junk := by
  cases hj : m.supply m.next with
  | some junk => exact ⟨junk, rfl⟩
  | none =>
    unfold allocRef alloc malloc at ha
    rw [hj] at ha
    cases ha

/-- The bytes asked for are there, behind a header that does not say more. -/
def Holds (m : Arena) (p : Ptr) (n : Nat) : Prop :=
  ∃ c, m.chunks p.chunk = some c ∧ n + 8 ≤ c.size ∧ n ≤ m.getRefSize p ∧ m.getRefSize p + 8 ≤ c.size ∧
    (m.at? p n).isSome

/-- Where `AllocRef` succeeds the block is as large as asked exactly if the size and its header fit
    a `uint32_t`. -/
theorem exact_iff (ha : m.allocRef n = (some p, m')) : m'.Holds p n ↔ n + 4 < 2 ^ 32 := by
  obtain ⟨junk, hj⟩ := allocRef_supplied ha
  have hle : uint32 n ≤ n := Nat.mod_le n _
  by_cases hn : uint32 n + 4 < 2 ^ 32
  · rw [allocRef_short hj hn] at ha
    cases ha
    have hc := grant_chunk m ⟨uint32 n + 8, headed (uint32 n) junk⟩
    have hsize : (m.grant ⟨uint32 n + 8, headed (uint32 n) junk⟩).getRefSize ⟨m.next, 8⟩ = uint32 n := by
      have hload := load32_chunk hc (i := 0) (by show 0 + 4 ≤ uint32 n + 8; omega)
      show uint32 (2 ^ 64 - 4 + load32 _ ⟨m.next, ((0 : Nat) : Int)⟩) = uint32 n
      rw [hload, headed_size hn]
      unfold uint32
      omega
    constructor
    · rintro ⟨c, hc', hbytes, _⟩
      rw [hc] at hc'
      cases hc'
      have hbytes : n + 8 ≤ uint32 n + 8 := hbytes
      omega
    · intro hlt
      have hun : uint32 n = n := Nat.mod_eq_of_lt (by omega)
      refine ⟨_, hc, by show n + 8 ≤ uint32 n + 8; omega, by rw [hsize, hun], by rw [hsize], ?_⟩
      rw [show (⟨m.next, 8⟩ : Ptr) = ⟨m.next, ((8 : Nat) : Int)⟩ from rfl,
        at_chunk hc (by show 8 + n ≤ uint32 n + 8; omega)]
      rfl
  · rw [allocRef_long hj (Nat.le_of_not_lt hn)] at ha
    cases ha
    have hlt : uint32 n < 2 ^ 32 := Nat.mod_lt _ (by norm_num)
    have hc := grant_chunk m ⟨uint32 n + 4 - 2 ^ 32 + 4, putWord junk 0 (uint32 n + 4 - 2 ^ 32)⟩
    refine iff_of_false ?_ (by omega)
    rintro ⟨c, hc', hbytes, _⟩
    rw [show (m.grant _).stray.chunks = (m.grant _).chunks from rfl, hc] at hc'
    cases hc'
    have hbytes : n + 8 ≤ uint32 n + 4 - 2 ^ 32 + 4 := hbytes
    omega

/-- A block of three bytes. -/
theorem exact_iff_three :
    let m := Arena.start fun _ => some fun _ => 0
    (m.allocRef 3).2.Holds ⟨0, 8⟩ 3 ↔ 3 + 4 < 2 ^ 32 := by
  intro m
  exact exact_iff (m := m) (Prod.ext rfl rfl)

/-- 2^32 bytes: the block has room for none. -/
theorem lost_in_conversion :
    ¬ ∀ (m : Arena) (n : Nat) (p : Ptr) (m' : Arena), m.allocRef n = (some p, m') → m'.Holds p n := by
  intro hall
  have hj : (Arena.start fun _ => some fun _ => 0).supply 0 = some fun _ => 0 := rfl
  obtain ⟨c, hc, hbytes, _⟩ := hall _ (2 ^ 32) _ _ (allocRef_short (n := 2 ^ 32) hj (by decide))
  rw [grant_chunk] at hc
  cases hc
  exact absurd hbytes (by decide)

/-! ## Blocks with a count -/

/-- What a reference-counted block is made of. -/
structure Refs (m : Arena) (a : Nat) (c : Chunk) (size count : Nat) : Prop where
  chunk : m.chunks a = some c
  length : c.size = size + 8
  sized : getWord c.bytes 0 = size + 4
  counted : getWord c.bytes 4 = count

/-- `p` is a block of `size` bytes and has `count` owners. -/
def Ref (m : Arena) (p : Ptr) (size count : Nat) : Prop := p.pos = 8 ∧ ∃ c, m.Refs p.chunk c size count

/-- The `n` bytes from `p` on. -/
def bytesAt (m : Arena) (p : Ptr) (n : Nat) : Bytes :=
  match m.at? p n with
  | none => []
  | some (c, i) => cells c.bytes i n

/-- Nothing is at a place not yet given out. -/
def Fresh (m : Arena) : Prop := ∀ a, m.next ≤ a → m.chunks a = none

variable {size count : Nat}

theorem Refs.getRefCount (hr : m.Refs a c size count) : m.getRefCount ⟨a, 8⟩ = count := by
  have hs := hr.length
  exact (load32_chunk hr.chunk (i := 4) (by omega)).trans hr.counted

theorem Refs.getRefSize (hr : m.Refs a c size count) (hlt : size < 2 ^ 32) : m.getRefSize ⟨a, 8⟩ = size := by
  have hs := hr.length
  have hload := (load32_chunk hr.chunk (i := 0) (by omega)).trans hr.sized
  show uint32 (2 ^ 64 - 4 + m.load32 ⟨a, ((0 : Nat) : Int)⟩) = size
  rw [hload]
  unfold uint32
  omega

theorem Refs.bytesAt (hr : m.Refs a c size count) (hn : n ≤ size) : m.bytesAt ⟨a, 8⟩ n = cells c.bytes 8 n := by
  have hs := hr.length
  unfold Arena.bytesAt
  rw [show (⟨a, 8⟩ : Ptr) = ⟨a, ((8 : Nat) : Int)⟩ from rfl, at_chunk hr.chunk (by omega)]

/-- Another count. -/
theorem Refs.recount (hr : m.Refs a c size count) (k : Nat) :
    m.store32 ⟨a, 4⟩ k = m.put a (some { c with bytes := putWord c.bytes 4 k }) := by
  have hs := hr.length
  exact store32_chunk hr.chunk (i := 4) (by omega) k

theorem refs_recounted (hr : m.Refs a c size count) {k : Nat} (hk : k < 2 ^ 32) :
    (m.put a (some { c with bytes := putWord c.bytes 4 k })).Refs a { c with bytes := putWord c.bytes 4 k } size k := by
  refine ⟨put_same _, hr.length, ?_, (getWord_put c.bytes 4 k).trans (Nat.mod_eq_of_lt hk)⟩
  show getWord (putWord c.bytes 4 k) 0 = size + 4
  rw [← hr.sized, getWord, putWord, cells_fill_before _ _ (by norm_num), getWord]

theorem cells_recounted (f : Nat → Byte) (k n : Nat) : cells (putWord f 4 k) 8 n = cells f 8 n :=
  cells_fill_after f _ (Nat.le_refl _)

/-- A reference of several dropped. -/
theorem descRef_several (hr : m.Refs a c size count) (h1 : 1 < count) (h2 : count < 2 ^ 32) :
    m.descRef ⟨a, 8⟩ = m.put a (some { c with bytes := putWord c.bytes 4 (count - 1) }) := by
  have hload : m.load32 ⟨a, 4⟩ = count := hr.getRefCount
  have hless : uint32 (2 ^ 32 - 1 + count) = count - 1 := by
    unfold uint32
    omega
  unfold descRef
  dsimp only
  rw [show (⟨a, 8⟩ : Ptr).add (-4) = ⟨a, 4⟩ from rfl, hload, hless, hr.recount, if_neg (by omega)]

/-! ## ReallocRef -/

/-- What `ReallocRef` should leave of a block at `p`, `q` the one it returns. -/
structure Reallocated (m m' : Arena) (p q : Ptr) (old count size : Nat) : Prop where
  block : m'.Ref q size 1
  bytes : m'.bytesAt q (min old size) = m.bytesAt p (min old size)
  /-- The other owners have theirs as it was. -/
  others : 1 < count → m'.Ref p old (count - 1) ∧ m'.bytesAt p old = m.bytesAt p old
  strays : m'.strays = m.strays

variable {old : Nat}

theorem cells_resized {size : Nat} (hn : i + n ≤ min c.size size) :
    cells (resized c size junk).bytes i n = cells c.bytes i n :=
  cells_congr fun _ _ hj => if_pos (Nat.lt_of_lt_of_le hj hn)

theorem realloc_granted (hc : m.chunks a = some c) (hj : m.supply m.next = some junk) (n : Nat) :
    m.realloc ⟨a, 4⟩ n = (some ⟨m.next, 4⟩, (m.put a none).grant
      ⟨uint32 n + 4, putWord (resized c (uint32 n + 4) junk).bytes 0 (uint32 n)⟩) := by
  have hraw : m.crealloc ⟨a, 0⟩ (uint32 n + 4) =
      (some ⟨m.next, 0⟩, (m.put a none).grant (resized c (uint32 n + 4) junk)) := by
    unfold crealloc
    rw [show (⟨a, 0⟩ : Ptr) = ⟨a, ((0 : Nat) : Int)⟩ from rfl, at_chunk hc (Nat.zero_le _)]
    dsimp only
    rw [if_pos rfl, hj]
    rfl
  have hstore := store32_chunk (grant_chunk (m.put a none) (resized c (uint32 n + 4) junk)) (i := 0)
    (by show 0 + 4 ≤ uint32 n + 4; omega) (uint32 n)
  rw [grant_put] at hstore
  unfold realloc
  dsimp only
  rw [show (⟨a, 4⟩ : Ptr).add (-4) = ⟨a, 0⟩ from rfl, hraw]
  exact Prod.ext rfl hstore

/-- The two ways through `ReallocRef`. -/
theorem reallocRef_resizes (h1 : m.getRefCount ⟨a, 8⟩ ≤ 1) :
    m.reallocRef ⟨a, 8⟩ n = match m.realloc ⟨a, 4⟩ (uint32 n + 4) with
      | (none, m) => (none, m)
      | (some ref, m) => (some (ref.add 4), m) := if_pos h1

theorem reallocRef_copies (h1 : ¬ m.getRefCount ⟨a, 8⟩ ≤ 1) :
    m.reallocRef ⟨a, 8⟩ n = match (m.descRef ⟨a, 8⟩).allocRef (uint32 n) with
      | (none, m) => (none, m.stray)
      | (some q, m) =>
        (some q, m.memcpy q ⟨a, 8⟩ (if uint32 n < m.getSize ⟨a, 8⟩ then uint32 n else m.getSize ⟨a, 8⟩)) := if_neg h1

/-- The only owner's block: `realloc`, and the size put right. -/
theorem reallocRef_alone (hr : m.Refs a c old 1) (hold : old < 2 ^ 32 - 8) (hsize : size < 2 ^ 32 - 8)
    (hj : m.supply m.next = some junk) :
    ∃ m', m.reallocRef ⟨a, 8⟩ size = (some ⟨m.next, 8⟩, m') ∧ m.Reallocated m' ⟨a, 8⟩ ⟨m.next, 8⟩ old 1 size := by
  have hlen := hr.length
  have hun : uint32 (uint32 size + 4) = size + 4 := by
    unfold uint32
    omega
  have hrealloc := realloc_granted hr.chunk hj (uint32 size + 4)
  rw [hun] at hrealloc
  have hresult : m.reallocRef ⟨a, 8⟩ size = (some ⟨m.next, 8⟩, (m.put a none).grant
      ⟨size + 4 + 4, putWord (resized c (size + 4 + 4) junk).bytes 0 (size + 4)⟩) := by
    rw [reallocRef_resizes (Nat.le_of_eq hr.getRefCount), hrealloc]
    rfl
  have hrefs : ((m.put a none).grant ⟨size + 4 + 4, putWord (resized c (size + 4 + 4) junk).bytes 0 (size + 4)⟩).Refs
      m.next ⟨size + 4 + 4, putWord (resized c (size + 4 + 4) junk).bytes 0 (size + 4)⟩ size 1 := by
    refine ⟨put_same _, rfl, (getWord_put _ 0 _).trans (Nat.mod_eq_of_lt (by omega)), ?_⟩
    show getWord (putWord _ 0 (size + 4)) 4 = 1
    rw [getWord, putWord, cells_fill_after _ _ (by show 0 + 4 ≤ 4; omega), cells_resized (by omega)]
    exact hr.counted
  refine ⟨_, hresult, ⟨rfl, _, hrefs⟩, ?_, fun h1 => absurd h1 (Nat.lt_irrefl 1), rfl⟩
  rw [hrefs.bytesAt (Nat.min_le_right _ _), hr.bytesAt (Nat.min_le_left _ _)]
  show cells (putWord _ 0 (size + 4)) 8 (min old size) = _
  rw [putWord, cells_fill_after _ _ (by show 0 + 4 ≤ 8; omega), cells_resized (by omega)]

theorem Fresh.ne (hf : m.Fresh) (hc : m.chunks a = some c) : a ≠ m.next := by
  rintro rfl
  rw [hf m.next (Nat.le_refl _)] at hc
  cases hc

/-- The header stays when bytes are copied behind it. -/
theorem refs_granted (m : Arena) (junk : Nat → Byte) (l : Bytes) (hsize : size + 4 < 2 ^ 32) :
    (m.grant ⟨size + 8, fill (headed size junk) 8 l⟩).Refs m.next ⟨size + 8, fill (headed size junk) 8 l⟩ size 1 := by
  refine ⟨grant_chunk m _, rfl, ?_, ?_⟩
  · exact (getWord_before _ l (by norm_num)).trans (headed_size hsize)
  · exact (getWord_before _ l (by norm_num)).trans (headed_count size junk)

/-- `k` bytes of one block copied to the front of a new one. -/
theorem bytesAt_copied (junk : Nat → Byte) {k : Nat} (hr : m.Refs a c old count) (hne : a ≠ m.next)
    (hsize : size + 4 < 2 ^ 32) (hk : k ≤ old) (hks : k ≤ size) :
    ((m.grant ⟨size + 8, headed size junk⟩).memcpy ⟨m.next, 8⟩ ⟨a, 8⟩ k =
        m.grant ⟨size + 8, fill (headed size junk) 8 (cells c.bytes 8 k)⟩) ∧
      (m.grant ⟨size + 8, fill (headed size junk) 8 (cells c.bytes 8 k)⟩).bytesAt ⟨m.next, 8⟩ (min old size) =
        cells c.bytes 8 k ++ cells junk (8 + k) (min old size - k) := by
  have hlen := hr.length
  have hl : (cells c.bytes 8 k).length = k := length_cells _ _ _
  constructor
  · have hsrc := at_chunk ((grant_ne m ⟨size + 8, headed size junk⟩ hne).trans hr.chunk) (i := 8) (n := k) (by omega)
    have hdst := store_chunk (grant_chunk m ⟨size + 8, headed size junk⟩) (i := 8) (l := cells c.bytes 8 k)
      (by rw [hl]; show 8 + k ≤ size + 8; omega)
    rw [grant_put] at hdst
    unfold memcpy
    rw [show (⟨a, 8⟩ : Ptr) = ⟨a, ((8 : Nat) : Int)⟩ from rfl, hsrc]
    exact hdst
  · have hstart := cells_fill_start (headed size junk) 8 (min old size - k) (cells c.bytes 8 k)
    rw [hl, show k + (min old size - k) = min old size by omega, cells_headed size junk (by omega)] at hstart
    rw [(refs_granted m junk _ hsize).bytesAt (Nat.min_le_right _ _)]
    exact hstart

theorem Refs.count_lt (hr : m.Refs a c old count) : count < 2 ^ 32 := by
  rw [← hr.counted]
  exact getWord_lt _ _

theorem Refs.beside (hr : m.Refs a c old count) (hne : a ≠ m.next) (e : Chunk) : (m.grant e).Refs a c old count :=
  ⟨(grant_ne m e hne).trans hr.chunk, hr.length, hr.sized, hr.counted⟩

/-- The reference is dropped, and as many bytes are copied as there are other owners. -/
theorem reallocRef_several (hr : m.Refs a c old count) (h1 : 1 < count) (hne : a ≠ m.next) (hsize : size < 2 ^ 32 - 8)
    (hj : m.supply m.next = some junk) :
    m.reallocRef ⟨a, 8⟩ size = (some ⟨m.next, 8⟩,
      ((m.put a (some { c with bytes := putWord c.bytes 4 (count - 1) })).grant ⟨size + 8, headed size junk⟩).memcpy
        ⟨m.next, 8⟩ ⟨a, 8⟩ (min (count - 1) size)) := by
  have h2 := hr.count_lt
  have hun : uint32 size = size := Nat.mod_eq_of_lt (by omega)
  have hread := ((refs_recounted hr (k := count - 1) (by omega)).beside hne ⟨size + 8, headed size junk⟩).getRefCount
  have halloc := allocRef_short (m := m.put a (some { c with bytes := putWord c.bytes 4 (count - 1) })) (n := size) hj
    (by rw [hun]; omega)
  rw [reallocRef_copies (by rw [hr.getRefCount]; omega), descRef_several hr h1 h2, hun]
  rw [hun] at halloc
  rw [halloc]
  dsimp only
  rw [show getSize _ ⟨a, 8⟩ = count - 1 from hread]
  congr 2
  split <;> omega

/-- A block of several: the number of the other owners is taken for its size. -/
theorem reallocRef_shared (hr : m.Refs a c old count) (h1 : 1 < count) (hf : m.Fresh) (hsize : size < 2 ^ 32 - 8)
    (hj : m.supply m.next = some junk) :
    ∃ m', m.reallocRef ⟨a, 8⟩ size = (some ⟨m.next, 8⟩, m') ∧
      (m.Reallocated m' ⟨a, 8⟩ ⟨m.next, 8⟩ old count size ↔
        min (count - 1) size ≤ old ∧ (m.bytesAt ⟨a, 8⟩ (min old size)).drop (min (count - 1) size) =
          cells junk (8 + min (count - 1) size) (min old size - min (count - 1) size)) := by
  have hne := hf.ne hr.chunk
  have hcopy := reallocRef_several hr h1 hne hsize hj
  -- the reference dropped
  have hrd := refs_recounted hr (k := count - 1) (Nat.lt_of_le_of_lt (Nat.sub_le _ _) hr.count_lt)
  generalize hd : ({ c with bytes := putWord c.bytes 4 (count - 1) } : Chunk) = d at hcopy hrd
  have hsame : ∀ n, cells d.bytes 8 n = cells c.bytes 8 n := by
    intro n
    rw [← hd]
    exact cells_recounted c.bytes (count - 1) n
  have hnext := hrd.beside hne
  refine ⟨_, hcopy, ?_⟩
  generalize hk : min (count - 1) size = k
  by_cases hin : k ≤ old
  · obtain ⟨hmem, hbytes⟩ := bytesAt_copied junk hrd hne (show size + 4 < 2 ^ 32 by omega) hin (by omega)
    have hcut : m.bytesAt ⟨a, 8⟩ (min old size) = cells c.bytes 8 k ++ (m.bytesAt ⟨a, 8⟩ (min old size)).drop k := by
      have htake := List.take_append_drop k (m.bytesAt ⟨a, 8⟩ (min old size))
      rw [hr.bytesAt (Nat.min_le_left _ _)] at htake ⊢
      rw [cells_take _ _ _ (show k ≤ min old size by omega)] at htake
      exact htake.symm
    have hbytes : ((m.put a (some d)).grant _).bytesAt ⟨m.next, 8⟩ (min old size) = _ := hbytes
    rw [show ((m.put a (some d)).grant _).memcpy ⟨m.next, 8⟩ ⟨a, 8⟩ k = _ from hmem]
    rw [hsame] at hbytes ⊢
    constructor
    · intro hre
      have he := hre.bytes
      rw [hbytes, hcut] at he
      exact ⟨hin, (List.append_cancel_left he).symm⟩
    · rintro ⟨_, he⟩
      refine ⟨⟨rfl, _, refs_granted (m.put a (some d)) junk _ (by omega)⟩, ?_, fun _ => ⟨⟨rfl, d, hnext _⟩, ?_⟩, rfl⟩
      · rw [hbytes, hcut, he]
      · rw [(hnext _).bytesAt (Nat.le_refl _), hr.bytesAt (Nat.le_refl _), hsame]
  · -- the copy leaves the old block
    have hlen := hrd.length
    refine iff_of_false (fun hre => ?_) fun hle => hin hle.1
    have hstray := hre.strays
    unfold memcpy at hstray
    rw [show (⟨a, 8⟩ : Ptr) = ⟨a, ((8 : Nat) : Int)⟩ from rfl,
      at_outside (hnext _).chunk (i := 8) (n := k) (by omega)] at hstray
    exact absurd hstray (Nat.succ_ne_self _)

/-- `ReallocRef` does what it is for exactly if the block has one owner, or as many bytes as it has other owners
    (no more than are wanted) lie in it and the rest are in the new block by chance. -/
theorem reallocated_iff (hf : m.Fresh) (hp : m.Ref p old count) (h1 : 1 ≤ count) (hold : old < 2 ^ 32 - 8)
    (hsize : size < 2 ^ 32 - 8) (hj : m.supply m.next = some junk) :
    ∃ q m', m.reallocRef p size = (some q, m') ∧
      (m.Reallocated m' p q old count size ↔ count = 1 ∨
        min (count - 1) size ≤ old ∧ (m.bytesAt p (min old size)).drop (min (count - 1) size) =
          cells junk (8 + min (count - 1) size) (min old size - min (count - 1) size)) := by
  obtain ⟨a, pos⟩ := p
  obtain ⟨rfl, c, hr⟩ : pos = 8 ∧ ∃ c, m.Refs a c old count := hp
  rcases Nat.eq_or_lt_of_le h1 with rfl | h1
  · obtain ⟨m', he, hre⟩ := reallocRef_alone hr hold hsize hj
    exact ⟨_, m', he, iff_of_true hre (Or.inl rfl)⟩
  · obtain ⟨m', he, hiff⟩ := reallocRef_shared hr h1 hf hsize hj
    exact ⟨_, m', he, hiff.trans ⟨Or.inr, fun hor => hor.resolve_left (Nat.ne_of_gt h1)⟩⟩

/-- Five bytes with one owner, of which three are kept. -/
theorem reallocated_iff_three :
    let m := ((Arena.start fun _ => some fun _ => 0).allocRef 5).2
    ∃ q m', m.reallocRef ⟨0, 8⟩ 3 = (some q, m') ∧
      (m.Reallocated m' ⟨0, 8⟩ q 5 1 3 ↔ 1 = 1 ∨
        min (1 - 1) 3 ≤ 5 ∧ (m.bytesAt ⟨0, 8⟩ (min 5 3)).drop (min (1 - 1) 3) =
          cells (fun _ => 0) (8 + min (1 - 1) 3) (min 5 3 - min (1 - 1) 3)) := by
  have hm := allocRef_short (m := .start fun _ => some fun _ => 0) (n := 5) rfl (by decide)
  rw [hm]
  refine reallocated_iff (m := grant _ _) (fun a ha => ?_) ⟨rfl, _, grant_chunk _ _, rfl, by decide, by decide⟩
    (Nat.le_refl 1) (by decide) (by decide) rfl
  exact put_ne _ (Nat.ne_of_gt ha)

/-- `abc` with two owners: the copy gets the `a`. -/
theorem shared_block_truncated :
    ¬ ∀ (m : Arena) (p : Ptr) (old count size : Nat) (q : Ptr) (m' : Arena), m.Fresh → m.Ref p old count → 1 ≤ count →
      m.reallocRef p size = (some q, m') → m.Reallocated m' p q old count size := by
  intro hall
  let m := ((((Arena.start fun _ => some fun _ => 0).allocRef 3).2.store ⟨0, 8⟩ [97, 98, 99]).incrRef ⟨0, 8⟩)
  have hfresh : m.Fresh := fun a ha => by
    match a, ha with
    | a + 1, _ => rfl
  have hre := hall m ⟨0, 8⟩ 3 2 3 ⟨1, 8⟩ (m.reallocRef ⟨0, 8⟩ 3).2 hfresh ⟨rfl, _, rfl, rfl, by decide, by decide⟩
    (by decide) (Prod.ext (by decide) rfl)
  exact absurd hre.bytes (by decide)

/-! ## The heap without its headers -/

/-- What `Mem.Heap` has of a chunk. -/
def block (c : Chunk) : Block :=
  ⟨uint32 (2 ^ 64 - 4 + getWord c.bytes 0), getWord c.bytes 4, fun i => c.bytes (8 + i)⟩

def view (m : Arena) : Heap :=
  ⟨fun a => (m.chunks a).map block, m.next, fun k => (m.supply k).map fun junk i => junk (8 + i), m.strays⟩

theorem view_put (a : Nat) (v : Option Chunk) : (m.put a v).view = m.view.put a (v.map block) := by
  unfold put view Heap.put
  rw [Heap.mk.injEq]
  exact ⟨Function.comp_update (Option.map block) m.chunks a v, rfl, rfl, rfl⟩

theorem view_grant (c : Chunk) :
    (m.grant c).view = { m.view.put m.next (some (block c)) with next := m.next + 1 } :=
  congrArg (fun h : Heap => { h with next := m.next + 1 }) (view_put m.next (some c))

theorem Refs.view (hr : m.Refs a c size count) : m.view.blocks a = some (block c) :=
  congrArg (Option.map block) hr.chunk

/-- The capacity and the count that the calls read are those of the block. -/
theorem view_reads (hr : m.Refs a c size count) :
    m.getRefSize ⟨a, 8⟩ = m.view.refSize a ∧ m.getRefCount ⟨a, 8⟩ = m.view.refCount a := by
  have hlen := hr.length
  rw [Heap.refSize_live hr.view, Heap.refCount_live hr.view]
  exact ⟨congrArg (fun x => uint32 (2 ^ 64 - 4 + x)) (load32_chunk hr.chunk (i := 0) (by omega)),
    load32_chunk hr.chunk (i := 4) (by omega)⟩

theorem view_allocRef (hn : n + 4 < 2 ^ 32) :
    (m.allocRef n).1.map Ptr.chunk = (m.view.allocRef n).1 ∧ (m.allocRef n).2.view = (m.view.allocRef n).2 := by
  have hun : uint32 n = n := Nat.mod_eq_of_lt (by omega)
  cases hj : m.supply m.next with
  | none =>
    have hv : m.view.supply m.view.next = none := congrArg (Option.map _) hj
    unfold allocRef alloc malloc Heap.allocRef
    rw [hj, hv]
    exact ⟨rfl, rfl⟩
  | some junk =>
    have hv : m.view.supply m.view.next = some fun i => junk (8 + i) := congrArg (Option.map _) hj
    have hblock : block ⟨n + 8, headed n junk⟩ = ⟨n % 2 ^ 32, 1, fun i => junk (8 + i)⟩ := by
      have hcells : ∀ i, headed n junk (8 + i) = junk (8 + i) := fun i =>
        (List.cons.inj (cells_headed n junk (Nat.le_add_right 8 i) 1)).1
      have hsize : uint32 (2 ^ 64 - 4 + (n + 4)) = n % 2 ^ 32 := by
        unfold uint32
        omega
      unfold block
      rw [headed_size hn, headed_count, hsize]
      exact congrArg _ (funext hcells)
    rw [allocRef_short hj (by rw [hun]; exact hn), hun, view_grant, hblock]
    unfold Heap.allocRef
    rw [hv]
    exact ⟨rfl, rfl⟩

/-- Another count, of an arena and of its heap. -/
theorem view_recount (m : Arena) (a : Nat) (c : Chunk) {k : Nat} (hk : k < 2 ^ 32) :
    (m.put a (some { c with bytes := putWord c.bytes 4 k })).view =
      m.view.put a (some { block c with count := k }) := by
  have hcells : ∀ i, putWord c.bytes 4 k (8 + i) = c.bytes (8 + i) := fun i =>
    (List.cons.inj (cells_fill_after c.bytes (bytesOf k) (show 4 + 4 ≤ 8 + i by omega) (n := 1))).1
  rw [view_put, Option.map_some]
  congr 2
  unfold block
  rw [getWord_put, Nat.mod_eq_of_lt hk, putWord, getWord_before _ _ (by norm_num)]
  exact congrArg _ (funext hcells)

theorem view_incrRef (hr : m.Refs a c size count) : (m.incrRef ⟨a, 8⟩).view = m.view.incrRef a := by
  have hload : m.load32 ⟨a, 4⟩ = count := hr.getRefCount
  have hcount : (block c).count = count := hr.counted
  unfold incrRef
  dsimp only
  rw [show (⟨a, 8⟩ : Ptr).add (-4) = ⟨a, 4⟩ from rfl, hload, hr.recount, Heap.incrRef_live hr.view, hcount,
    view_recount m a c (k := uint32 (count + 1)) (Nat.mod_lt _ (by norm_num))]
  rfl

theorem view_descRef (hr : m.Refs a c size count) (h1 : 1 ≤ count) :
    (m.descRef ⟨a, 8⟩).view = m.view.descRef a := by
  have h2 : count < 2 ^ 32 := by
    rw [← hr.counted]
    exact getWord_lt _ _
  have hcount : (block c).count = count := hr.counted
  rcases Nat.eq_or_lt_of_le h1 with rfl | h1
  · -- the last reference: the chunk is freed
    have hload : m.load32 ⟨a, 4⟩ = 1 := hr.getRefCount
    have hfree : (m.put a (some { c with bytes := putWord c.bytes 4 0 })).cfree ⟨a, 0⟩ =
        (m.put a (some { c with bytes := putWord c.bytes 4 0 })).put a none := by
      unfold cfree
      rw [show (⟨a, 0⟩ : Ptr) = ⟨a, ((0 : Nat) : Int)⟩ from rfl, at_chunk (put_same _) (Nat.zero_le _)]
      exact if_pos rfl
    have hdesc : m.descRef ⟨a, 8⟩ = (m.put a (some { c with bytes := putWord c.bytes 4 0 })).put a none := by
      unfold descRef
      dsimp only
      rw [show (⟨a, 8⟩ : Ptr).add (-4) = ⟨a, 4⟩ from rfl, hload, show uint32 (2 ^ 32 - 1 + 1) = 0 from by decide,
        if_pos rfl, hr.recount]
      exact hfree
    rw [hdesc, Heap.descRef_last hr.view hcount, view_put, view_put]
    unfold Heap.put
    simp only [Function.update_idem, Option.map_none]
  · rw [descRef_several hr h1 h2, Heap.descRef_shared hr.view (by rw [hcount]; exact h1) (by rw [hcount]; exact h2),
      hcount, view_recount m a c (by omega)]

/-- Bytes copied into a block. -/
theorem view_store (hr : m.Refs a c size count) {i : Nat} {l : Bytes} (hi : i + l.length ≤ size) :
    (m.store ⟨a, ((8 + i : Nat) : Int)⟩ l).view = m.view.write a i l := by
  have hlen := hr.length
  have hcells : ∀ j, fill c.bytes (8 + i) l (8 + j) = fill (fun j => c.bytes (8 + j)) i l j := by
    intro j
    unfold fill
    by_cases hij : i ≤ j
    · rw [if_pos (by omega), if_pos hij, show 8 + j - (8 + i) = j - i by omega]
    · rw [if_neg (by omega), if_neg hij]
  rw [store_chunk hr.chunk (by omega), view_put, Heap.write_live hr.view, Option.map_some]
  congr 2
  unfold block
  rw [getWord_before _ _ (by omega), getWord_before _ _ (by omega)]
  exact congrArg _ (funext hcells)

end Arena

end RedisProxy.Mem
