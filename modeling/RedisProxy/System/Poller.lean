/-
  RedisProxy.System.Poller — the event loop (`PollOnce` of epoll.cpp, `HandleWriteEvents` of
  netio.cpp, `RunOnce` of server.cpp).

  A round calls `OnWritable` of every event in `writeEvents`, and then handles what
  `epoll_wait` reports, one event after the other: the listener accepts, a hang-up closes,
  an event is read and after that written. What is read is given to the proxy of
  `System.Proxy`; what the kernel answers is a parameter of the round.

  The list is walked as it was when the round began. A call takes its own event off, and
  puts none on (`Net.WriteList` has the walk itself). A connection that is closed is deleted
  and stays on the list, which `RemoveNotify` does not look at; the next round calls it
  (`strayed`). An upstream that closes is `Server.Recovery`'s.

  Proved: `call_pollOnce`, a round keeps the list as the `EPOLLOUT` bits are if it closes no
  connection that is on it, and leaves one on it that is gone if it does.
-/

import RedisProxy.Lib.Marks
import RedisProxy.Lib.Simulation
import RedisProxy.Server.Standing
import RedisProxy.System.Lifetime

namespace RedisProxy.System

open Lib Lib.Decimal Lib.Marks Lib.Runs Lib.Simulation Wire Net Client Server

/-- Whose event it is. -/
inductive Owner where
  | upstream
  | client (k : Nat)
  deriving DecidableEq, Repr

/-- The connection of a client. -/
def Owner.conn : Owner → Option Nat
  | .upstream => none
  | .client k => some k

/-- What `read` answers. -/
inductive ReadResult where
  | got (chunk beyond : Bytes)
  | again
  /-- The end of the stream, or a failure. -/
  | ended
  deriving DecidableEq, Repr

/-- What `epoll_wait` reports: `input` where `EPOLLIN` is set, `output` where `EPOLLOUT` is. -/
inductive Report where
  | listening (accepted : Bool)
  | hangUp (k : Nat)
  | client (k : Nat) (input : Option ReadResult) (output : Option WriteResult)
  /-- A read that brings nothing does nothing, and is left out. -/
  | server (input : Option (Bytes × Bytes)) (output : Option WriteResult)
  deriving DecidableEq, Repr

/-- The connection of a client. -/
def Report.conn : Report → Option Nat
  | .listening _ => none
  | .hangUp k => some k
  | .client k _ _ => some k
  | .server _ _ => none

structure Round where
  writes : Owner → WriteResult
  batch : List Report

/-- The `EPOLLOUT` bit. -/
def Proxy.writable (p : Proxy) : Owner → Bool
  | .upstream => p.upstream.serverConn.writable
  | .client k => (p.connection k).any (·.writable)

structure Poller where
  proxy : Proxy
  writeEvents : List Owner
  /-- A handler was called on a connection that had been deleted. -/
  strayed : Bool

namespace Poller

def start (n : Nat) (h : 0 < n) : Poller := ⟨.start n h, [], false⟩

/-- The proxy is `q` now; `SetWritable` may have been called on those in `os`. -/
def handled (p : Poller) (q : Proxy) (os : List Owner) : Poller :=
  { p with proxy := q, writeEvents := relist p.proxy.writable q.writable os p.writeEvents }

/-- Its connection is deleted, and it stays where it is in `writeEvents`. -/
def close (p : Poller) (k : Nat) : Poller := { p with proxy := p.proxy.step (.close k) }

def onWritable (p : Poller) (o : Owner) (w : WriteResult) : Poller :=
  match o with
  | .upstream => p.handled (p.proxy.step (.serverWrite w)) [.upstream]
  | .client k =>
    match p.proxy.connection k with
    | none => { p with strayed := true }
    | some c =>
      if (c.onWritable w).1 = .closed then { p with proxy := p.proxy.step (.write k w) }
      else p.handled (p.proxy.step (.write k w)) [.client k]

def visit (writes : Owner → WriteResult) (p : Poller) (o : Owner) : Poller := p.onWritable o (writes o)

def handleWriteEvents (p : Poller) (writes : Owner → WriteResult) : Poller :=
  p.writeEvents.foldl (visit writes) p

/-- The session's own connection. -/
def readerOwner (p : Proxy) (reader : Nat) : List Owner :=
  (p.sessions[reader]?.map fun s => Owner.client s.clientConn).toList

/-- `OnServerWrite` of the reader's session. -/
def onServerWrite (p : Poller) (w : Nat × Bytes) : Poller :=
  p.handled (p.proxy.onServerWrite w.1 w.2) (readerOwner p.proxy w.1)

/-- A read of the upstream connection. -/
def onServerRead (p : Poller) (chunk : Bytes × Bytes) : Poller :=
  ((⟨p.proxy.upstream, []⟩ : Relay Nat).onReadable p.proxy.identity chunk).writes.foldl onServerWrite
    { p with proxy := { p.proxy with
      upstream := ((⟨p.proxy.upstream, []⟩ : Relay Nat).onReadable p.proxy.identity chunk).upstream } }

/-- `OnReadable` of a client's connection, and whether it returns `OK`. -/
def onReadable (p : Poller) (k : Nat) (r : ReadResult) : Bool × Poller :=
  match p.proxy.connection k with
  | none => (false, { p with strayed := true })
  | some _ =>
    match r with
    | .got chunk beyond => (true, p.handled (p.proxy.step (.read k chunk beyond)) [.upstream, .client k])
    | .again => (false, p)
    | .ended => (false, p.close k)

/-- One event of the batch. -/
def report (p : Poller) : Report → Poller
  | .listening accepted => if accepted then { p with proxy := p.proxy.step .accept } else p
  | .hangUp k =>
    match p.proxy.connection k with
    | none => { p with strayed := true }
    | some _ => p.close k
  | .client k input output =>
    -- an `OnReadable` that does not return `OK` ends it
    let (ok, p) := input.elim (true, p) (p.onReadable k)
    if ok then output.elim p (p.onWritable (.client k)) else p
  | .server input output =>
    let p := input.elim p p.onServerRead
    output.elim p (p.onWritable .upstream)

def pollOnce (p : Poller) (r : Round) : Poller := r.batch.foldl report (p.handleWriteEvents r.writes)

def run (p : Poller) (rounds : List Round) : Poller := rounds.foldl pollOnce p

/-! ## What a handler changes -/

variable {p q : Proxy} {os : List Owner} {k : Nat}

/-- Of the proxy: connections stay, those that are gone stay gone, and only the bits of `os`
    change. -/
structure Changes (p q : Proxy) (os : List Owner) : Prop where
  bits : ∀ o, o ∉ os → q.writable o = p.writable o
  live : ∀ k, p.Live k → q.Live k
  length : p.pool.length ≤ q.pool.length
  gone : ∀ k, k < p.pool.length → p.connection k = none → q.connection k = none

theorem writable_gone (h : p.connection k = none) : p.writable (.client k) = false := by
  simp [Proxy.writable, h]

theorem changes_pool (hpool : q.pool = p.pool)
    (hbit : .upstream ∉ os → q.writable .upstream = p.writable .upstream) : Changes p q os := by
  have hconn : ∀ j, q.connection j = p.connection j := by
    intro j
    rw [Proxy.connection, hpool]
    rfl
  refine ⟨?_, ?_, ?_, ?_⟩
  · intro o ho
    cases o with
    | upstream => exact hbit ho
    | client j => simp [Proxy.writable, hconn]
  · intro j ⟨c, hc⟩
    exact ⟨c, (hconn j).trans hc⟩
  · rw [hpool]
  · intro j _ hj
    exact (hconn j).trans hj

theorem changes_set {c : Connection} (hk : p.Live k) (hpool : q.pool = p.pool.set k (some c)) (hmem : .client k ∈ os)
    (hbit : .upstream ∉ os → q.writable .upstream = p.writable .upstream) : Changes p q os := by
  have hconn : ∀ j, j ≠ k → q.connection j = p.connection j := by
    intro j hj
    rw [Proxy.connection, hpool, List.getElem?_set_ne (Ne.symm hj)]
    rfl
  refine ⟨?_, ?_, ?_, ?_⟩
  · intro o ho
    cases o with
    | upstream => exact hbit ho
    | client j =>
      have hj : j ≠ k := by
        rintro rfl
        exact ho hmem
      simp [Proxy.writable, hconn j hj]
  · intro j hj
    exact Proxy.live_set hpool hj
  · rw [hpool, List.length_set]
  · intro j _ hj
    have hne : j ≠ k := by
      rintro rfl
      obtain ⟨c, hc⟩ := hk
      rw [hj] at hc
      cases hc
    exact (hconn j hne).trans hj

theorem changes_read (hk : p.Live k) (chunk beyond : Bytes) :
    Changes p (p.step (.read k chunk beyond)) [.upstream, .client k] := by
  obtain ⟨c, hc⟩ := hk
  show Changes p (p.onClientRead k (chunk, beyond)) _
  unfold Proxy.onClientRead
  rw [hc]
  cases p.sessions[k]? with
  | none => exact changes_pool rfl fun _ => rfl
  | some s => exact changes_set ⟨c, hc⟩ rfl (by simp) fun h => absurd List.mem_cons_self h

theorem changes_write {c : Connection} (hc : p.connection k = some c) (w : WriteResult)
    (hopen : (c.onWritable w).1 ≠ .closed) : Changes p (p.step (.write k w)) [.client k] := by
  have hstays : p.step (.write k w) = _ := Proxy.write_stays hc hopen
  rw [hstays]
  exact changes_set ⟨c, hc⟩ rfl List.mem_cons_self fun _ => rfl

theorem changes_answer (p : Proxy) (reader : Nat) (bytes : Bytes) :
    Changes p (p.onServerWrite reader bytes) (readerOwner p reader) := by
  unfold Proxy.onServerWrite readerOwner
  cases hs : p.sessions[reader]? with
  | none => exact changes_pool rfl fun _ => rfl
  | some s =>
    have hconn : p.clientConn reader = p.connection s.clientConn := by
      rw [Proxy.clientConn, hs]
    rw [hconn]
    cases hc : p.connection s.clientConn with
    | none => exact changes_pool rfl fun _ => rfl
    | some c =>
      dsimp only
      by_cases hopen : c.connected = true
      · rw [if_pos hopen]
        exact changes_set ⟨c, hc⟩ rfl (by simp) fun _ => rfl
      · rw [if_neg hopen]
        exact changes_pool rfl fun _ => rfl

theorem changes_accept (p : Proxy) : Changes p (p.step .accept) [] := by
  have hold : ∀ j, j < p.pool.length → (p.step .accept).connection j = p.connection j := by
    intro j hj
    show (p.pool ++ _)[j]?.join = _
    rw [List.getElem?_append_left hj]
    rfl
  refine ⟨?_, ?_, ?_, ?_⟩
  · intro o _
    cases o with
    | upstream => rfl
    | client j =>
      by_cases hj : j < p.pool.length
      · simp [Proxy.writable, hold j hj]
      · -- a new connection has nothing to write
        have hnone : p.connection j = none := by
          rw [Proxy.connection, List.getElem?_eq_none (Nat.le_of_not_lt hj)]
          rfl
        rw [writable_gone hnone]
        show ((p.pool ++ [some .opened])[j]?.join).any _ = false
        rw [List.getElem?_append_right (Nat.le_of_not_lt hj), List.getElem?_singleton]
        split <;> rfl
  · intro j hj
    obtain ⟨c, hc⟩ := hj
    exact ⟨c, (hold j (Proxy.live_lt ⟨c, hc⟩)).trans hc⟩
  · show p.pool.length ≤ (p.pool ++ _).length
    simp
  · intro j hj hnone
    exact (hold j hj).trans hnone

/-! ## The list -/

/-- The list is what the bits say. -/
structure Listed (s : Poller) : Prop where
  once : s.writeEvents.Nodup
  bits : ∀ o, o ∈ s.writeEvents ↔ s.proxy.writable o = true

/-- A connection is on the list that has been deleted. -/
structure Dangling (s : Poller) (k : Nat) : Prop where
  listed : .client k ∈ s.writeEvents
  known : k < s.proxy.pool.length
  gone : s.proxy.connection k = none

variable {s t u : Poller}

theorem handled_listed (hl : Listed s) (hc : Changes s.proxy q os) (hos : os.Nodup) : Listed (s.handled q os) := by
  obtain ⟨honce, hmem⟩ := relisted s.proxy.writable q.writable os hos s.writeEvents hl.once fun o _ => hl.bits o
  refine ⟨honce, ?_⟩
  intro o
  refine (hmem o).trans ?_
  by_cases ho : o ∈ os
  · rw [if_pos ho]
    rfl
  · rw [if_neg ho, hl.bits]
    show _ ↔ q.writable o = true
    rw [hc.bits o ho]

theorem handled_dangling (hd : Dangling s k) (hc : Changes s.proxy q os) : Dangling (s.handled q os) k := by
  have hgone := hc.gone k hd.known hd.gone
  refine ⟨?_, Nat.lt_of_lt_of_le hd.known hc.length, hgone⟩
  apply mem_relisted
  · rw [writable_gone hd.gone, writable_gone hgone]
  · exact hd.listed

theorem live_of_listed (hl : Listed s) (hk : .client k ∈ s.writeEvents) : s.proxy.Live k := by
  have hbit := (hl.bits _).mp hk
  cases hc : s.proxy.connection k with
  | none =>
    rw [writable_gone hc] at hbit
    cases hbit
  | some c => exact ⟨c, hc⟩

theorem listed_client (hl : Listed s) {c : Connection} (hc : s.proxy.connection k = some c) :
    .client k ∈ s.writeEvents ↔ c.writable = true := by
  rw [hl.bits, Proxy.writable, hc]
  rfl

/-! ## A call -/

/-- What a part of the loop does that closes none but those of `own`, and none on the list
    exactly if `quiet`. -/
structure Call (own : Nat → Prop) (quiet : Prop) (s t : Poller) : Prop where
  listed : Listed s → quiet → Listed t
  leaves : Listed s → ¬ quiet → ∃ k, Dangling t k
  dangling : ∀ k, Dangling s k → Dangling t k
  others : ∀ j, ¬ own j → s.proxy.Live j → t.proxy.Live j
  strayed : s.strayed = true → t.strayed = true

theorem call_refl (own : Nat → Prop) (s : Poller) : Call own True s s :=
  ⟨fun hl _ => hl, fun _ h => absurd trivial h, fun _ hd => hd, fun _ _ h => h, id⟩

theorem Call.trans {own own' : Nat → Prop} {quiet quiet' : Prop} (h : Call own quiet s t)
    (h' : Call own' quiet' t u) : Call (fun j => own j ∨ own' j) (quiet ∧ quiet') s u := by
  refine ⟨?_, ?_, ?_, ?_, fun hs => h'.strayed (h.strayed hs)⟩
  · intro hl hq
    exact h'.listed (h.listed hl hq.1) hq.2
  · intro hl hq
    by_cases hq1 : quiet
    · exact h'.leaves (h.listed hl hq1) fun hq2 => hq ⟨hq1, hq2⟩
    · obtain ⟨k, hd⟩ := h.leaves hl hq1
      exact ⟨k, h'.dangling k hd⟩
  · intro k hd
    exact h'.dangling k (h.dangling k hd)
  · intro j hj hlive
    exact h'.others j (fun h => hj (Or.inr h)) (h.others j (fun h => hj (Or.inl h)) hlive)

theorem Call.mono {own own' : Nat → Prop} {quiet quiet' : Prop} (h : Call own quiet s t)
    (hown : ∀ j, own j → own' j) (hquiet : quiet ↔ quiet') : Call own' quiet' s t :=
  ⟨fun hl hq => h.listed hl (hquiet.mpr hq), fun hl hq => h.leaves hl fun hq' => hq (hquiet.mp hq'), h.dangling,
    fun j hj => h.others j fun h => hj (hown j h), h.strayed⟩

/-- One after the other. -/
theorem call_fold {α : Type} {step : Poller → α → Poller} {own : α → Nat → Prop} {quiet : Poller → α → Prop}
    (hstep : ∀ s x, Call (own x) (quiet s x) s (step s x)) (xs : List α) : ∀ s,
    Call (fun j => ∃ x ∈ xs, own x j) (Each step quiet s xs) s (xs.foldl step s) := by
  induction xs with
  | nil => intro s; exact call_refl _ s
  | cons x xs ih =>
    intro s
    apply ((hstep s x).trans (ih (step s x))).mono
    · intro j hj
      simpa using hj
    · exact Iff.rfl

/-- The handler of a connection that is not there. -/
theorem call_stray (own : Nat → Prop) {quiet : Prop} (hq : ¬ quiet → .client k ∈ s.writeEvents)
    (hgone : s.proxy.connection k = none) : Call own quiet s { s with strayed := true } := by
  refine ⟨fun hl _ => ⟨hl.once, hl.bits⟩, ?_, fun _ hd => ⟨hd.listed, hd.known, hd.gone⟩, fun _ _ h => h,
    fun _ => rfl⟩
  intro hl hquiet
  obtain ⟨c, hc⟩ := live_of_listed hl (hq hquiet)
  rw [hgone] at hc
  cases hc

theorem call_handled (own : Nat → Prop) (hc : Changes s.proxy q os) (hos : os.Nodup) :
    Call own True s (s.handled q os) :=
  ⟨fun hl _ => handled_listed hl hc hos, fun _ h => absurd trivial h, fun _ hd => handled_dangling hd hc,
    fun j _ h => hc.live j h, id⟩

/-- A connection that is closed is not looked for in the list. -/
theorem call_closed (hk : s.proxy.Live k) (hpool : q.pool = s.proxy.pool.set k none)
    (hup : q.upstream = s.proxy.upstream) :
    Call (· = k) (.client k ∉ s.writeEvents) s { s with proxy := q } := by
  have hconn : ∀ j, q.connection j = if j = k then none else s.proxy.connection j := by
    intro j
    rw [Proxy.connection, hpool]
    by_cases hj : j = k
    · subst hj
      rw [if_pos rfl, List.getElem?_set, if_pos rfl, if_pos (Proxy.live_lt hk)]
      rfl
    · rw [if_neg hj, List.getElem?_set_ne (Ne.symm hj)]
      rfl
  have hlength : q.pool.length = s.proxy.pool.length := by rw [hpool, List.length_set]
  refine ⟨?_, ?_, ?_, ?_, id⟩
  · intro hl hquiet
    refine ⟨hl.once, ?_⟩
    intro o
    refine (hl.bits o).trans ?_
    show _ ↔ q.writable o = true
    cases o with
    | upstream => simp [Proxy.writable, hup]
    | client j =>
      by_cases hj : j = k
      · subst hj
        rw [writable_gone (show q.connection j = none by simp [hconn])]
        exact iff_of_false (fun hbit => hquiet ((hl.bits _).mpr hbit)) Bool.false_ne_true
      · simp [Proxy.writable, hconn, hj]
  · intro _ hquiet
    refine ⟨k, Classical.not_not.mp hquiet, ?_, by simp [hconn]⟩
    show k < q.pool.length
    rw [hlength]
    exact Proxy.live_lt hk
  · intro j hd
    refine ⟨hd.listed, ?_, ?_⟩
    · show j < q.pool.length
      rw [hlength]
      exact hd.known
    · simp [hconn, hd.gone]
  · intro j hne ⟨c, hc⟩
    exact ⟨c, by simp [hconn, hne, hc]⟩

/-! ### Of the handlers -/

/-- `OnWritable` does not close a connection that is on the list. -/
def WriteQuiet (s : Poller) (o : Owner) (w : WriteResult) : Prop :=
  match o with
  | .upstream => True
  | .client k => ∀ c ∈ s.proxy.connection k, (c.onWritable w).1 = .closed → .client k ∉ s.writeEvents

instance (s : Poller) (o : Owner) (w : WriteResult) : Decidable (s.WriteQuiet o w) := by
  unfold WriteQuiet
  cases o <;> infer_instance

theorem call_onWritable (s : Poller) (o : Owner) (w : WriteResult) :
    Call (fun j => o.conn = some j) (WriteQuiet s o w) s (s.onWritable o w) := by
  cases o with
  | upstream =>
    have hchanges : Changes s.proxy (s.proxy.step (.serverWrite w)) [.upstream] :=
      changes_pool rfl fun h => absurd List.mem_cons_self h
    exact (call_handled _ hchanges (List.nodup_singleton _)).mono (fun _ h => h) Iff.rfl
  | client k =>
    unfold onWritable
    dsimp only
    cases hc : s.proxy.connection k with
    | none =>
      refine call_stray _ (fun hq => ?_) hc
      by_contra hno
      exact hq fun _ _ _ => hno
    | some c =>
      dsimp only
      by_cases hclosed : (c.onWritable w).1 = .closed
      · rw [if_pos hclosed]
        have hcloses : s.proxy.step (.write k w) = s.proxy.removeConnection k := Proxy.write_closes hc hclosed
        have hclose : Call (· = k) (.client k ∉ s.writeEvents) s { s with proxy := s.proxy.removeConnection k } :=
          call_closed ⟨c, hc⟩ rfl rfl
        rw [hcloses]
        apply hclose.mono
        · intro j hj
          rw [hj]
          rfl
        · exact ⟨fun h _ _ _ => h, fun h => h c hc hclosed⟩
      · rw [if_neg hclosed]
        refine (call_handled _ (changes_write hc w hclosed) (List.nodup_singleton _)).mono (fun _ h => h) ?_
        refine iff_of_true trivial ?_
        intro d hd hclosed'
        obtain rfl := Option.some.inj (hc.symm.trans hd)
        exact absurd hclosed' hclosed

theorem call_onServerRead (s : Poller) (chunk : Bytes × Bytes) :
    Call (fun _ => False) True s (s.onServerRead chunk) := by
  have hanswer : ∀ (s : Poller) (w : Nat × Bytes), Call (fun _ => False) True s (s.onServerWrite w) := by
    intro s w
    apply call_handled _ (changes_answer s.proxy w.1 w.2)
    unfold readerOwner
    cases s.proxy.sessions[w.1]? <;> simp
  let r := (⟨s.proxy.upstream, []⟩ : Relay Nat).onReadable s.proxy.identity chunk
  have hkept : Relay.Kept s.proxy.upstream r.upstream := Relay.onReadable_kept ⟨s.proxy.upstream, []⟩ chunk
  have hfirst : Changes s.proxy { s.proxy with upstream := r.upstream } [] := by
    refine changes_pool rfl fun _ => ?_
    show r.upstream.serverConn.writable = _
    rw [hkept.conn]
    rfl
  have htrue : ∀ (ws : List (Nat × Bytes)) (s : Poller), Each onServerWrite (fun _ _ => True) s ws := by
    intro ws
    induction ws with
    | nil => intro s; trivial
    | cons w ws ih => intro s; exact ⟨trivial, ih _⟩
  apply ((call_handled (fun _ => False) hfirst List.nodup_nil).trans (call_fold hanswer r.writes _)).mono
  · intro j hj
    simp at hj
  · exact iff_of_true ⟨trivial, htrue _ _⟩ trivial

theorem call_onReadable (s : Poller) (k : Nat) (r : ReadResult) :
    Call (· = k) (r = .ended → .client k ∉ s.writeEvents) s (s.onReadable k r).2 := by
  unfold onReadable
  cases hc : s.proxy.connection k with
  | none =>
    refine call_stray _ (fun hq => ?_) hc
    by_contra hno
    exact hq fun _ => hno
  | some c =>
    cases r with
    | got chunk beyond =>
      refine (call_handled _ (changes_read ⟨c, hc⟩ chunk beyond) (by simp)).mono (fun _ h => h) ?_
      exact iff_of_true trivial fun h => by cases h
    | again => exact (call_refl _ s).mono (fun _ h => h) (iff_of_true trivial fun h => by cases h)
    | ended =>
      have hclose : Call (· = k) (.client k ∉ s.writeEvents) s (s.close k) := call_closed ⟨c, hc⟩ rfl rfl
      exact hclose.mono (fun _ h => h) ⟨fun h _ => h, fun h => h rfl⟩

/-! ## A round -/

/-- The report closes no connection that is on the list. -/
def ReportQuiet (s : Poller) : Report → Prop
  | .listening _ => True
  | .hangUp k => .client k ∉ s.writeEvents
  | .client k input output =>
    let r := input.elim (true, s) (s.onReadable k)
    (input = some .ended → .client k ∉ s.writeEvents) ∧
      (r.1 = true → ∀ w ∈ output, WriteQuiet r.2 (.client k) w)
  | .server _ _ => True

instance (s : Poller) : (x : Report) → Decidable (s.ReportQuiet x)
  | .listening _ => inferInstanceAs (Decidable True)
  | .hangUp _ => inferInstanceAs (Decidable (¬ _))
  | .client _ _ _ => inferInstanceAs (Decidable (_ ∧ _))
  | .server _ _ => inferInstanceAs (Decidable True)

/-- The round closes no connection that is on the list. -/
def Tidy (s : Poller) (r : Round) : Prop :=
  Each (visit r.writes) (fun s o => WriteQuiet s o (r.writes o)) s s.writeEvents ∧
    Each report ReportQuiet (s.handleWriteEvents r.writes) r.batch

instance (s : Poller) (r : Round) : Decidable (s.Tidy r) := inferInstanceAs (Decidable (_ ∧ _))

/-- Each is reported once, and has not been closed. -/
structure Reported (s : Poller) (batch : List Report) : Prop where
  once : (batch.filterMap Report.conn).Nodup
  live : ∀ k ∈ batch.filterMap Report.conn, s.proxy.Live k

instance (p : Proxy) (k : Nat) : Decidable (p.Live k) := decidable_of_iff _ Option.isSome_iff_exists

instance (s : Poller) (batch : List Report) : Decidable (s.Reported batch) :=
  decidable_of_iff (_ ∧ _) ⟨fun h => ⟨h.1, h.2⟩, fun h => ⟨h.once, h.live⟩⟩

theorem call_report (s : Poller) (x : Report) : Call (fun j => x.conn = some j) (ReportQuiet s x) s (s.report x) := by
  cases x with
  | listening accepted =>
    cases accepted with
    | false => exact (call_refl _ s).mono (fun _ h => h) Iff.rfl
    | true =>
      have haccept : Call (fun _ => False) True s (s.handled (s.proxy.step .accept) []) :=
        call_handled _ (changes_accept s.proxy) List.nodup_nil
      exact haccept.mono (fun _ h => h.elim) Iff.rfl
  | hangUp k =>
    unfold report
    dsimp only
    cases hc : s.proxy.connection k with
    | none => exact call_stray _ (fun hq => Classical.not_not.mp hq) hc
    | some c =>
      have hclose : Call (· = k) (.client k ∉ s.writeEvents) s (s.close k) := call_closed ⟨c, hc⟩ rfl rfl
      exact hclose.mono (fun j hj => by rw [hj]; rfl) Iff.rfl
  | client k input output =>
    have hread : Call (· = k) (input = some .ended → .client k ∉ s.writeEvents) s
        (input.elim (true, s) (s.onReadable k)).2 := by
      cases input with
      | none => exact (call_refl _ s).mono (fun _ h => h) (iff_of_true trivial fun h => by cases h)
      | some r => exact (call_onReadable s k r).mono (fun _ h => h) (by simp)
    unfold report ReportQuiet
    dsimp only
    generalize input.elim (true, s) (s.onReadable k) = r at hread ⊢
    obtain ⟨ok, t⟩ := r
    have hread : Call _ _ s t := hread
    have hwrite : Call (fun j => some k = some j) (ok = true → ∀ w ∈ output, WriteQuiet t (.client k) w) t
        (if ok = true then output.elim t (t.onWritable (.client k)) else t) := by
      cases ok with
      | false => exact (call_refl _ t).mono (fun _ h => h) (iff_of_true trivial fun h => by cases h)
      | true =>
        rw [if_pos rfl]
        cases output with
        | none => exact (call_refl _ t).mono (fun _ h => h) (iff_of_true trivial fun _ w hw => by cases hw)
        | some w => exact (call_onWritable t (.client k) w).mono (fun _ h => h) (by simp)
    apply (hread.trans hwrite).mono
    · rintro j (rfl | hj)
      · rfl
      · exact hj
    · exact Iff.rfl
  | server input output =>
    unfold report
    dsimp only
    have hread : Call (fun _ => False) True s (input.elim s s.onServerRead) := by
      cases input with
      | none => exact call_refl _ s
      | some chunk => exact call_onServerRead s chunk
    generalize input.elim s s.onServerRead = t at hread ⊢
    have hwrite : Call (fun _ => False) True t (output.elim t (t.onWritable .upstream)) := by
      cases output with
      | none => exact call_refl _ t
      | some w =>
        apply (call_onWritable t .upstream w).mono
        · intro j hj
          cases hj
        · exact Iff.rfl
    apply (hread.trans hwrite).mono
    · rintro j (h | h)
      · exact h.elim
      · exact h.elim
    · exact iff_of_true ⟨trivial, trivial⟩ trivial

theorem call_pollOnce (s : Poller) (r : Round) : Call (fun _ => True) (Tidy s r) s (s.pollOnce r) := by
  have hvisit : ∀ (s : Poller) (o : Owner),
      Call (fun j => o.conn = some j) (WriteQuiet s o (r.writes o)) s (visit r.writes s o) :=
    fun s o => call_onWritable s o (r.writes o)
  exact ((call_fold hvisit s.writeEvents s).trans (call_fold call_report r.batch _)).mono (fun _ _ => trivial) Iff.rfl

end Poller

end RedisProxy.System
