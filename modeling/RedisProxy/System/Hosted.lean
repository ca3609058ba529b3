/-
  RedisProxy.System.Hosted — the proxy with its descriptors.

  An event of the proxy comes with what the kernel answers to the calls that are made
  (`Answer`). The k-th connection of the pool is the k-th of `Server.Descriptors`; an accept
  may fail before there is one, or close it again.

  Proved: `open_exact`, over every run, whatever the kernel answers: a connection of the pool
  has a descriptor of its own with all options set, and nothing else is open but what the
  process was given, the epoll set, the listener and the upstream's.
-/

import RedisProxy.Server.Descriptors
import RedisProxy.System.Lifetime

namespace RedisProxy.System

open Lib Lib.Decimal Lib.Slots Wire Net Client Server

structure Answer where
  answers : Answers
  /-- Of `accept`, call after call. -/
  accepts : List (Option Nat)
  /-- Of `NewConnectionHandler`. -/
  handler : Error
  /-- The calls of `SetReadable` (`true`) and `SetWritable` that the handlers make, whichever. -/
  sets : List (Bool × Option Nat × Bool)

def Answer.acts (a : Answer) : List Process.Act :=
  a.sets.map fun (readable, who, flag) => if readable then .setReadable a.answers who flag else .setWritable who flag

/-- The connection that an event closes. -/
def Proxy.closing (p : Proxy) : Proxy.Event → Option Nat
  | .close k => some k
  | .write k w => if (p.connection k).any fun c => (c.onWritable w).1 = .closed then some k else none
  | _ => none

structure Hosted where
  proxy : Proxy
  process : Process

namespace Hosted

variable (opt : NetIoOptions)

def accept (s : Hosted) (a : Answer) : Hosted :=
  let process := (s.process.accept opt a.answers a.accepts a.handler).2
  { process := process
    proxy := match process.conns[s.process.conns.length]? with
      | none => s.proxy
      | some (some _) => s.proxy.step .accept
      | some none => (s.proxy.step .accept).step (.close s.process.conns.length) }

def handle (s : Hosted) (e : Proxy.Event) (a : Answer) : Hosted :=
  let process := s.process.run opt a.acts
  { proxy := s.proxy.step e
    process := match s.proxy.closing e with
      | none => process
      | some k => process.close a.answers k false }

def step (s : Hosted) (e : Proxy.Event × Answer) : Hosted :=
  match e.1 with
  | .accept => s.accept opt e.2
  | _ => s.handle opt e.1 e.2

def run (s : Hosted) (events : List (Proxy.Event × Answer)) : Hosted := events.foldl (step opt) s

/-! ## What is in the pool -/

variable {opt} {p : Proxy} {d : Process} {a : Answer}

theorem removed_present (p : Proxy) (k : Nat) : present (p.removeConnection k).pool = (present p.pool).set k false :=
  present_free p.pool k

theorem onServerWrite_present (p : Proxy) (reader : Nat) (bytes : Bytes) :
    present (p.onServerWrite reader bytes).pool = present p.pool := by
  unfold Proxy.onServerWrite Proxy.clientConn
  dsimp only
  cases p.sessions[reader]? with
  | none => rfl
  | some s =>
    cases hc : p.connection s.clientConn with
    | none => simp only [hc]
    | some c =>
      simp only [hc]
      split
      · exact present_put hc _
      · rfl

theorem onServerRead_present (p : Proxy) (chunk : Bytes × Bytes) :
    present (p.onServerRead chunk).pool = present p.pool := by
  have hfold : ∀ (ws : List (Nat × Bytes)) (p : Proxy),
      present (ws.foldl (fun p w => p.onServerWrite w.1 w.2) p).pool = present p.pool := by
    intro ws
    induction ws with
    | nil => intro p; rfl
    | cons w ws ih => intro p; exact (ih _).trans (onServerWrite_present p w.1 w.2)
  exact hfold _ _

theorem onClientRead_present (p : Proxy) (k : Nat) (chunk : Bytes × Bytes) :
    present (p.onClientRead k chunk).pool = present p.pool := by
  unfold Proxy.onClientRead
  cases p.sessions[k]? with
  | none => rfl
  | some s =>
    cases hc : p.connection k with
    | none => rfl
    | some c => exact present_put hc _

/-- An event of a connection leaves the pool as it is, but for the connection it closes. -/
theorem step_present (p : Proxy) (e : Proxy.Event) (he : e ≠ .accept) : present (p.step e).pool =
    match p.closing e with
    | none => present p.pool
    | some k => (present p.pool).set k false := by
  cases e with
  | accept => exact absurd rfl he
  | read k chunk beyond => exact onClientRead_present p k (chunk, beyond)
  | write k w =>
    show present (p.onClientWrite k w).pool = _
    cases hc : p.connection k with
    | none =>
      have hnone : p.closing (.write k w) = none := by simp [Proxy.closing, hc]
      rw [hnone, Proxy.onClientWrite, hc]
    | some c =>
      by_cases hclosed : (c.onWritable w).1 = .closed
      · have hsome : p.closing (.write k w) = some k := by simp [Proxy.closing, hc, hclosed]
        rw [hsome, Proxy.write_closes hc hclosed]
        exact removed_present p k
      · have hnone : p.closing (.write k w) = none := by simp [Proxy.closing, hc, hclosed]
        rw [hnone, Proxy.write_stays hc hclosed]
        exact present_put hc _
  | close k => exact removed_present p k
  | serverRead chunk beyond => exact onServerRead_present p (chunk, beyond)
  | serverWrite w => rfl

/-! ## What is open -/

theorem put_present {who : Option Nat} {evt : Event} (he : d.event who = some evt) (evt' : Event) (host : Host) :
    present (d.put who evt' host).conns = present d.conns := by
  cases who with
  | none => rfl
  | some c => exact present_put he evt'

/-- The upstream's connection is there, and none was lost. -/
structure Whole (d : Process) (given : List Piece) (opt : NetIoOptions) : Prop where
  balanced : d.Balanced opt given
  upstream : d.upstream.isSome = true

variable {given : List Piece}

/-- What the handlers set closes nothing. -/
theorem sets_whole (a : Answer) (hw : Whole d given opt) :
    Whole (d.run opt a.acts) given opt ∧ present (d.run opt a.acts).conns = present d.conns := by
  unfold Answer.acts Process.run
  rw [List.foldl_map]
  induction a.sets generalizing d with
  | nil => exact ⟨hw, rfl⟩
  | cons set sets ih =>
    obtain ⟨readable, who, flag⟩ := set
    have hstep : ∀ act : Process.Act, act = .setReadable a.answers who flag ∨ act = .setWritable who flag →
        Whole (d.step opt act) given opt ∧ present (d.step opt act).conns = present d.conns := by
      intro act hact
      have hbalanced := Process.step_balanced hw.balanced act
      cases he : d.event who with
      | none =>
        have hsame : d.step opt act = d := by rcases hact with rfl | rfl <;> simp [Process.step, he]
        rw [hsame]
        exact ⟨hw, rfl⟩
      | some evt =>
        obtain ⟨evt', host, hset⟩ : ∃ evt' host, d.step opt act = d.put who evt' host := by
          rcases hact with rfl | rfl
          · refine ⟨(d.host.setReadable a.answers evt flag).2.1, (d.host.setReadable a.answers evt flag).2.2, ?_⟩
            simp only [Process.step, he]
          · refine ⟨(evt.setWritable d.host.poll flag).1,
              { d.host with poll := (evt.setWritable d.host.poll flag).2 }, ?_⟩
            simp only [Process.step, he]
        rw [hset] at hbalanced ⊢
        refine ⟨⟨hbalanced, ?_⟩, put_present he evt' host⟩
        cases who with
        | none => rfl
        | some c => exact hw.upstream
    obtain ⟨hwhole, hpresent⟩ := hstep (if readable then .setReadable a.answers who flag else .setWritable who flag)
      (by cases readable <;> simp)
    obtain ⟨hrest, hsame⟩ := ih hwhole
    exact ⟨hrest, hsame.trans hpresent⟩

/-- A close of a connection, whether it is there or not. -/
theorem close_whole (k : Answers) (c : Nat) (hw : Whole d given opt) :
    Whole (d.close k c false) given opt ∧ present (d.close k c false).conns = (present d.conns).set c false := by
  have hbalanced := Process.close_balanced hw.balanced k c false
  unfold Process.close at *
  cases hc : entry d.conns c with
  | none => exact ⟨hw, (present_gone hc).symm⟩
  | some evt =>
    rw [hc] at hbalanced
    exact ⟨⟨hbalanced, hw.upstream⟩, present_free d.conns c⟩

/-- An accept adds no connection, one, or one that is closed again. -/
theorem accept_conns (opt : NetIoOptions) (d : Process) (k : Answers) (answers : List (Option Nat)) (handler : Error) :
    (d.accept opt k answers handler).2.upstream = d.upstream ∧
      ((d.accept opt k answers handler).2.conns = d.conns ∨
        ∃ evt, (d.accept opt k answers handler).2.conns = d.conns ++ [evt]) := by
  unfold Process.accept
  split
  · exact ⟨rfl, Or.inl rfl⟩
  · exact ⟨rfl, Or.inl rfl⟩
  · dsimp only
    split
    · split
      · exact ⟨rfl, Or.inl rfl⟩
      · split
        · exact ⟨rfl, Or.inr ⟨_, rfl⟩⟩
        · unfold Process.close
          split
          · exact ⟨rfl, Or.inr ⟨_, rfl⟩⟩
          · refine ⟨rfl, Or.inr ⟨none, ?_⟩⟩
            show (d.conns ++ [_]).set d.conns.length none = _
            rw [List.set_append_right _ _ (Nat.le_refl _)]
            simp
    · exact ⟨rfl, Or.inl rfl⟩

/-! ## A run -/

/-- Who is in the pool has a descriptor. -/
structure Inv (s : Hosted) (opt : NetIoOptions) (given : List Piece) : Prop where
  whole : Whole s.process given opt
  same : present s.proxy.pool = present s.process.conns

variable {s : Hosted}

theorem inv_accept (hi : s.Inv opt given) (a : Answer) : (s.accept opt a).Inv opt given := by
  have hbalanced := Process.accept_balanced hi.whole.balanced a.answers a.accepts a.handler
  obtain ⟨hup, hconns⟩ := accept_conns opt s.process a.answers a.accepts a.handler
  have hwhole : Whole (s.process.accept opt a.answers a.accepts a.handler).2 given opt :=
    ⟨hbalanced, by rw [hup]; exact hi.whole.upstream⟩
  refine ⟨hwhole, ?_⟩
  unfold accept
  dsimp only
  rcases hconns with hconns | ⟨evt, hconns⟩
  · rw [hconns, List.getElem?_eq_none (Nat.le_refl _)]
    exact hi.same
  · rw [hconns, List.getElem?_append_right (Nat.le_refl _), Nat.sub_self]
    have hadded : present (s.proxy.step .accept).pool = present s.process.conns ++ [true] := by
      show present (s.proxy.pool ++ [some .opened]) = _
      rw [present, List.map_append]
      exact congrArg (· ++ [true]) hi.same
    have hlength : (present s.process.conns).length = s.process.conns.length := List.length_map _
    cases evt with
    | some evt =>
      refine hadded.trans ?_
      rw [present, present, List.map_append]
      rfl
    | none =>
      show present ((s.proxy.step .accept).removeConnection s.process.conns.length).pool = _
      rw [removed_present, hadded, List.set_append_right _ _ (Nat.le_of_eq hlength), hlength, Nat.sub_self, present,
        present, List.map_append]
      rfl

theorem inv_handle (hi : s.Inv opt given) (e : Proxy.Event) (he : e ≠ .accept) (a : Answer) :
    (s.handle opt e a).Inv opt given := by
  obtain ⟨hwhole, hpresent⟩ := sets_whole a hi.whole
  have hpool := step_present s.proxy e he
  unfold handle
  cases hclosing : s.proxy.closing e with
  | none =>
    rw [hclosing] at hpool
    refine ⟨hwhole, ?_⟩
    show present (s.proxy.step e).pool = present (s.process.run opt a.acts).conns
    rw [hpool, hpresent]
    exact hi.same
  | some k =>
    rw [hclosing] at hpool
    obtain ⟨hclosed, hfree⟩ := close_whole a.answers k hwhole
    refine ⟨hclosed, ?_⟩
    show present (s.proxy.step e).pool = present ((s.process.run opt a.acts).close a.answers k false).conns
    rw [hpool, hfree, hpresent]
    exact congrArg (·.set k false) hi.same

theorem inv_run (hi : s.Inv opt given) (events : List (Proxy.Event × Answer)) : (s.run opt events).Inv opt given := by
  unfold run
  induction events generalizing s with
  | nil => exact hi
  | cons e events ih =>
    apply ih
    obtain ⟨e, a⟩ := e
    cases e with
    | accept => exact inv_accept hi a
    | _ => exact inv_handle hi _ (by simp) a

/-- After an `Init` that is `OK`, over every run of the proxy, whatever the kernel answers: a
    connection of the pool has an open descriptor, with all options set, that no other has,
    and beside these nothing is open but what the process was given, the epoll set, the
    listener and the upstream's connection. -/
theorem open_exact (n : Nat) (hn : 0 < n) (files : List (Option (List Syscall))) (creates : Option Nat)
    (listens connects reads : Answers)
    (h : ((Process.blank files).init opt creates listens connects reads).1 = .ok)
    (events : List (Proxy.Event × Answer)) :
    let s := run opt ⟨.start n hn, ((Process.blank files).init opt creates listens connects reads).2⟩ events
    (∀ k, s.proxy.Live k ↔ ∃ evt, entry s.process.conns k = some evt ∧ (evt.fd, opt.calls) ∈ s.process.opened) ∧
      (∀ j k evt evt', entry s.process.conns j = some evt → entry s.process.conns k = some evt' →
        evt.fd = evt'.fd → j = k) ∧
      s.process.opened.length = (Process.blank files).opened.length + 3 + s.proxy.pool.reduceOption.length := by
  obtain ⟨hup, hconns⟩ := Process.init_upstream files h
  have hstart : Inv ⟨.start n hn, ((Process.blank files).init opt creates listens connects reads).2⟩ opt
      (Process.givenOf files) := ⟨⟨Process.init_balanced files h, hup⟩, by rw [hconns]; rfl⟩
  have hi := inv_run hstart events
  dsimp only
  generalize run opt ⟨.start n hn, ((Process.blank files).init opt creates listens connects reads).2⟩ events = s at hi
  have hopened := Process.balanced_opened hi.whole.balanced
  obtain ⟨evt, hup⟩ := Option.isSome_iff_exists.mp hi.whole.upstream
  have hlost : s.process.lost = [] := by
    have hlost := hi.whole.balanced.lost
    rw [hup] at hlost
    exact List.eq_nil_of_length_eq_zero (by simpa using hlost)
  refine ⟨?_, ?_, ?_⟩
  · intro k
    have hsame : (entry s.proxy.pool k).isSome = (entry s.process.conns k).isSome := by
      rw [present_entry, present_entry, hi.same]
    constructor
    · rintro ⟨c, hc⟩
      have hsome : (entry s.proxy.pool k).isSome = true := Option.isSome_iff_exists.mpr ⟨c, hc⟩
      rw [hsame] at hsome
      obtain ⟨evt, hevt⟩ := Option.isSome_iff_exists.mp hsome
      refine ⟨evt, hevt, hopened.symm.subset ?_⟩
      apply List.mem_append_left
      apply List.mem_append_right
      exact List.mem_map.mpr ⟨evt, mem_entries.mpr ⟨k, hevt⟩, rfl⟩
    · rintro ⟨evt, hevt, -⟩
      rw [hevt] at hsame
      exact Option.isSome_iff_exists.mp hsame
  · intro j k evt evt' hj hk hfd
    refine entries_apart Event.fd ?_ hj hk hfd
    have honce := (hopened.map Prod.fst).nodup_iff.mp s.process.opened_once
    rw [List.map_append] at honce
    have hheld := (List.nodup_append.mp honce).1
    rw [Process.held, List.map_append, List.map_map, List.map_map] at hheld
    exact (List.nodup_append.mp hheld).2.1
  · have hlength := hopened.length_eq
    have hcount : s.process.conns.reduceOption.length = s.proxy.pool.reduceOption.length := by
      rw [present_count, present_count, hi.same]
    simp only [Process.held, hup, hlost, Option.toList_some, List.length_append, List.length_map, List.length_cons,
      List.length_nil, List.map_nil] at hlength
    omega

/-- A client that cannot be registered, and one that stays. -/
theorem open_exact_full :
    let grants : Answers := ⟨.ok, none, fun _ => none⟩
    let full : Answers := ⟨.ok, none, fun c => if c = .epollCtl then some 28 else none⟩
    let s := run .default ⟨.start 3 (by decide),
        ((Process.blank [some [], some [], some []]).init .default none grants grants grants).2⟩
      [(.accept, ⟨full, [none], .ok, []⟩), (.accept, ⟨grants, [some eintr, none], .ok, []⟩),
        (.read 1 [42, 49, 13, 10] [], ⟨grants, [], .ok, [(true, some 1, false)]⟩)]
    (∀ k, s.proxy.Live k ↔ ∃ evt, entry s.process.conns k = some evt ∧
        (evt.fd, NetIoOptions.default.calls) ∈ s.process.opened) ∧
      (∀ j k evt evt', entry s.process.conns j = some evt → entry s.process.conns k = some evt' →
        evt.fd = evt'.fd → j = k) ∧
      s.process.opened.length = (Process.blank [some [], some [], some []]).opened.length + 3 +
        s.proxy.pool.reduceOption.length :=
  open_exact 3 (by decide) _ none _ _ _ rfl _

end Hosted

end RedisProxy.System
