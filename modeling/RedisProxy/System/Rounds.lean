/-
  RedisProxy.System.Rounds — runs of the event loop.

  `Reported` is what `epoll_wait` promises: an event is reported once, and is watched, so its
  connection has not been closed.

  Proved, over every run of rounds, whatever the kernel answers:
  - `strays_iff`: a handler is called on a deleted connection if and only if a round before
    the last closed a connection that was on the list of writers.
  - `rounds_served`: if none is closed that is on the list or has a command in the queue, the
    list holds each connection that has `EPOLLOUT` once and no other, every reply goes to a
    connection of the pool, and the proxy is where the handlers' events, one by one, lead.
  - `written_once`: then a round writes each of these connections once, before it reads.
-/

import RedisProxy.System.Poller

namespace RedisProxy.System.Poller

open Lib Lib.Decimal Lib.Runs Lib.Simulation Wire Net Client Server

variable {p : Proxy} {s : Poller} {k : Nat}

/-! ## Calls on what is gone -/

/-- Handlers of connections that are there, each once. -/
theorem fold_safe {α : Type} {step : Poller → α → Poller} (conn : α → Option Nat)
    (hothers : ∀ s x j, conn x ≠ some j → s.proxy.Live j → (step s x).proxy.Live j)
    (hsafe : ∀ s x, (∀ k, conn x = some k → s.proxy.Live k) → (step s x).strayed = s.strayed) (xs : List α) :
    ∀ s : Poller, (xs.filterMap conn).Nodup → (∀ k ∈ xs.filterMap conn, s.proxy.Live k) →
      (xs.foldl step s).strayed = s.strayed := by
  induction xs with
  | nil => intro s _ _; rfl
  | cons x xs ih =>
    intro s honce hlive
    have hx : ∀ k, conn x = some k → s.proxy.Live k := by
      intro k hk
      apply hlive
      rw [List.filterMap_cons_some hk]
      exact List.mem_cons_self
    refine (ih _ ?_ ?_).trans (hsafe s x hx)
    · cases hc : conn x with
      | none => rwa [List.filterMap_cons_none hc] at honce
      | some k =>
        rw [List.filterMap_cons_some hc] at honce
        exact (List.nodup_cons.mp honce).2
    · intro j hj
      apply hothers s x j
      · intro hc
        rw [List.filterMap_cons_some hc] at honce
        exact (List.nodup_cons.mp honce).1 hj
      · apply hlive
        cases hc : conn x with
        | none => rwa [List.filterMap_cons_none hc]
        | some k =>
          rw [List.filterMap_cons_some hc]
          exact List.mem_cons_of_mem k hj

theorem onWritable_safe (o : Owner) (w : WriteResult) (hlive : ∀ k, o.conn = some k → s.proxy.Live k) :
    (s.onWritable o w).strayed = s.strayed := by
  cases o with
  | upstream => rfl
  | client k =>
    obtain ⟨c, hc⟩ := hlive k rfl
    unfold onWritable
    dsimp only
    rw [hc]
    dsimp only
    split <;> rfl

theorem onServerRead_strayed (s : Poller) (chunk : Bytes × Bytes) : (s.onServerRead chunk).strayed = s.strayed := by
  have hfold : ∀ (ws : List (Nat × Bytes)) (s : Poller), (ws.foldl onServerWrite s).strayed = s.strayed := by
    intro ws
    induction ws with
    | nil => intro s; rfl
    | cons w ws ih => intro s; exact ih _
  exact hfold _ _

theorem report_safe (x : Report) (hlive : ∀ k, x.conn = some k → s.proxy.Live k) :
    (s.report x).strayed = s.strayed := by
  cases x with
  | listening accepted => cases accepted <;> rfl
  | hangUp k =>
    obtain ⟨c, hc⟩ := hlive k rfl
    unfold report
    dsimp only
    rw [hc]
    rfl
  | client k input output =>
    obtain ⟨c, hc⟩ := hlive k rfl
    -- a read that returns `OK` leaves the connection
    have hread : ((input.elim (true, s) (s.onReadable k)).1 = true →
        (input.elim (true, s) (s.onReadable k)).2.proxy.Live k) ∧
        (input.elim (true, s) (s.onReadable k)).2.strayed = s.strayed := by
      cases input with
      | none => exact ⟨fun _ => ⟨c, hc⟩, rfl⟩
      | some r =>
        show ((s.onReadable k r).1 = true → (s.onReadable k r).2.proxy.Live k) ∧ (s.onReadable k r).2.strayed = _
        unfold onReadable
        rw [hc]
        cases r with
        | got chunk beyond => exact ⟨fun _ => (changes_read ⟨c, hc⟩ chunk beyond).live k ⟨c, hc⟩, rfl⟩
        | again => exact ⟨fun h => absurd h Bool.false_ne_true, rfl⟩
        | ended => exact ⟨fun h => absurd h Bool.false_ne_true, rfl⟩
    obtain ⟨hread, hsame⟩ := hread
    unfold report
    dsimp only
    rcases hr : input.elim (true, s) (s.onReadable k) with ⟨ok, t⟩
    rw [hr] at hread hsame
    have hsame : t.strayed = s.strayed := hsame
    cases ok with
    | false => exact hsame
    | true =>
      cases output with
      | none => exact hsame
      | some w =>
        refine (onWritable_safe (s := t) (.client k) w fun j hj => ?_).trans hsame
        obtain rfl := Option.some.inj hj
        exact hread rfl
  | server input output =>
    unfold report
    dsimp only
    have hread : (input.elim s s.onServerRead).strayed = s.strayed := by
      cases input with
      | none => rfl
      | some chunk => exact onServerRead_strayed s chunk
    cases output with
    | none => exact hread
    | some w => exact hread

theorem filterMap_conn (l : List Owner) (hl : l.Nodup) : (l.filterMap Owner.conn).Nodup := by
  refine hl.filterMap fun o o' k ho ho' => ?_
  cases o <;> cases o' <;> simp_all [Owner.conn]

theorem visits_safe (hl : Listed s) (writes : Owner → WriteResult) :
    (s.handleWriteEvents writes).strayed = s.strayed := by
  apply fold_safe Owner.conn
  · intro s o j hj
    exact (call_onWritable s o (writes o)).others j hj
  · intro s o
    exact onWritable_safe o (writes o)
  · exact filterMap_conn _ hl.once
  · intro k hk
    obtain ⟨o, ho, hok⟩ := List.mem_filterMap.mp hk
    cases o with
    | upstream => cases hok
    | client j =>
      obtain rfl := Option.some.inj hok
      exact live_of_listed hl ho

theorem batch_safe {batch : List Report} (h : Reported s batch) : (batch.foldl report s).strayed = s.strayed := by
  apply fold_safe Report.conn
  · intro s x j hj
    exact (call_report s x).others j hj
  · intro s x
    exact report_safe x
  · exact h.once
  · exact h.live

/-- The list is walked, and one that is gone is called. -/
theorem visits_stray (writes : Owner → WriteResult) (l : List Owner) : ∀ s : Poller, Dangling s k →
    .client k ∈ l → (l.foldl (visit writes) s).strayed = true := by
  have hkeeps : ∀ (l : List Owner) (s : Poller), s.strayed = true → (l.foldl (visit writes) s).strayed = true :=
    fun l s => (call_fold (fun s o => call_onWritable s o (writes o)) l s).strayed
  induction l with
  | nil => intro s _ hk; cases hk
  | cons o l ih =>
    intro s hd hk
    rcases List.mem_cons.mp hk with rfl | hk
    · refine hkeeps l _ ?_
      unfold visit onWritable
      dsimp only
      rw [hd.gone]
    · exact ih _ ((call_onWritable s o (writes o)).dangling k hd) hk

theorem pollOnce_stray (hd : Dangling s k) (r : Round) : (s.pollOnce r).strayed = true := by
  apply (call_fold call_report r.batch _).strayed
  exact visits_stray r.writes s.writeEvents s hd hd.listed

/-! ## Runs -/

theorem strayed_run (rounds : List Round) : ∀ s : Poller, s.strayed = true → (s.run rounds).strayed = true := by
  induction rounds with
  | nil => intro s h; exact h
  | cons r rounds ih => intro s h; exact ih _ ((call_pollOnce s r).strayed h)

theorem listed_start (n : Nat) (h : 0 < n) : Listed (start n h) := by
  refine ⟨List.nodup_nil, ?_⟩
  intro o
  cases o <;> simp [start, Proxy.start, Proxy.writable, Proxy.connection, Upstream.start, Connection.opened]

/-- `epoll_wait` keeps its promise in every round. -/
def Promised (s : Poller) (rounds : List Round) : Prop :=
  Each pollOnce (fun s r => Reported (s.handleWriteEvents r.writes) r.batch) s rounds

theorem strays_from (rounds : List Round) (last : Round) : ∀ s : Poller, Listed s →
    Promised s (rounds ++ [last]) →
      ((s.run (rounds ++ [last])).strayed = s.strayed ∧ Each pollOnce Tidy s rounds ∨
        (s.run (rounds ++ [last])).strayed = true ∧ ¬ Each pollOnce Tidy s rounds) := by
  induction rounds with
  | nil =>
    intro s hl hp
    exact Or.inl ⟨(batch_safe hp.1).trans (visits_safe hl last.writes), trivial⟩
  | cons r rounds ih =>
    intro s hl hp
    have hcall := call_pollOnce s r
    by_cases htidy : Tidy s r
    · have hsame : (s.pollOnce r).strayed = s.strayed := (batch_safe hp.1).trans (visits_safe hl r.writes)
      rcases ih _ (hcall.listed hl htidy) hp.2 with ⟨hrun, hall⟩ | ⟨hrun, hnot⟩
      · exact Or.inl ⟨hrun.trans hsame, htidy, hall⟩
      · exact Or.inr ⟨hrun, fun h => hnot h.2⟩
    · -- the next round finds it
      obtain ⟨k, hd⟩ := hcall.leaves hl htidy
      refine Or.inr ⟨?_, fun h => htidy h.1⟩
      show ((s.pollOnce r).run (rounds ++ [last])).strayed = true
      cases rounds with
      | nil => exact pollOnce_stray hd last
      | cons r' rounds => exact strayed_run (rounds ++ [last]) _ (pollOnce_stray hd r')

/-- Over every run a handler is called on a deleted connection if and only if a round before
    the last has closed one that was on the list. -/
theorem strays_iff (n : Nat) (h : 0 < n) (rounds : List Round) (last : Round)
    (hp : Promised (start n h) (rounds ++ [last])) :
    ((start n h).run (rounds ++ [last])).strayed = true ↔ ¬ Each pollOnce Tidy (start n h) rounds := by
  rcases strays_from rounds last _ (listed_start n h) hp with ⟨hrun, hall⟩ | ⟨hrun, hnot⟩
  · rw [hrun]
    exact iff_of_false Bool.false_ne_true fun hnot => hnot hall
  · exact iff_of_true hrun hnot

/-- `PING` of a client. -/
def ping : List Round :=
  [⟨fun _ => .again, [.listening true]⟩,
    ⟨fun _ => .again, [.client 0 (some (.got [42, 49, 13, 10, 36, 52, 13, 10, 80, 73, 78, 71, 13, 10] [])) none]⟩,
    ⟨fun _ => .wrote 14, [.server (some ([43, 80, 79, 78, 71, 13, 10], [])) none]⟩]

/-- It hangs up before its answer is written. -/
theorem strays_iff_hangUp :
    let rounds := ping ++ [⟨fun _ => .again, [.hangUp 0]⟩]
    ((start 3 (by decide)).run (rounds ++ [⟨fun _ => .again, []⟩])).strayed = true := by
  refine (strays_iff 3 (by decide) _ _ ?_).mpr (by decide)
  unfold Promised
  decide

/-! ## The handlers' events -/

def writeActs (s : Poller) (o : Owner) (w : WriteResult) : List Proxy.Event :=
  match o with
  | .upstream => [.serverWrite w]
  | .client k => if (s.proxy.connection k).isSome then [.write k w] else []

def readActs (s : Poller) (k : Nat) (r : ReadResult) : List Proxy.Event :=
  if (s.proxy.connection k).isSome then
    match r with
    | .got chunk beyond => [.read k chunk beyond]
    | .again => []
    | .ended => [.close k]
  else []

def reportActs (s : Poller) : Report → List Proxy.Event
  | .listening accepted => if accepted then [.accept] else []
  | .hangUp k => if (s.proxy.connection k).isSome then [.close k] else []
  | .client k input output =>
    let r := input.elim (true, s) (s.onReadable k)
    input.elim [] (s.readActs k) ++ if r.1 then output.elim [] (r.2.writeActs (.client k)) else []
  | .server input output =>
    input.elim [] (fun chunk => [.serverRead chunk.1 chunk.2]) ++
      output.elim [] ((input.elim s s.onServerRead).writeActs .upstream)

/-- The events of a round, in the order of the calls. -/
def acts (s : Poller) (r : Round) : List Proxy.Event :=
  trace (visit r.writes) (fun s o => s.writeActs o (r.writes o)) s s.writeEvents ++
    trace report reportActs (s.handleWriteEvents r.writes) r.batch

theorem write_acts (s : Poller) (o : Owner) (w : WriteResult) :
    (s.onWritable o w).proxy = s.proxy.run (s.writeActs o w) := by
  cases o with
  | upstream => rfl
  | client k =>
    unfold onWritable writeActs
    dsimp only
    cases s.proxy.connection k with
    | none => rfl
    | some c =>
      dsimp only
      split <;> rfl

theorem read_acts (s : Poller) (k : Nat) (r : ReadResult) :
    (s.onReadable k r).2.proxy = s.proxy.run (s.readActs k r) := by
  unfold onReadable readActs
  cases s.proxy.connection k with
  | none => rfl
  | some c => cases r <;> rfl

theorem onServerRead_proxy (s : Poller) (chunk : Bytes × Bytes) :
    (s.onServerRead chunk).proxy = s.proxy.onServerRead chunk := by
  have hfold : ∀ (ws : List (Nat × Bytes)) (s : Poller),
      (ws.foldl onServerWrite s).proxy = ws.foldl (fun p w => p.onServerWrite w.1 w.2) s.proxy := by
    intro ws
    induction ws with
    | nil => intro s; rfl
    | cons w ws ih => intro s; exact ih _
  exact hfold _ _

theorem report_acts (s : Poller) (x : Report) : (s.report x).proxy = s.proxy.run (s.reportActs x) := by
  cases x with
  | listening accepted => cases accepted <;> rfl
  | hangUp k =>
    unfold report reportActs
    dsimp only
    cases s.proxy.connection k <;> rfl
  | client k input output =>
    have hread : (input.elim (true, s) (s.onReadable k)).2.proxy = s.proxy.run (input.elim [] (s.readActs k)) := by
      cases input with
      | none => rfl
      | some r => exact read_acts s k r
    unfold report reportActs
    dsimp only
    rw [Proxy.run, List.foldl_append]
    generalize input.elim (true, s) (s.onReadable k) = r at hread ⊢
    obtain ⟨ok, t⟩ := r
    have hread : t.proxy = _ := hread
    rw [Proxy.run] at hread
    rw [← hread]
    cases ok with
    | false => rfl
    | true =>
      cases output with
      | none => rfl
      | some w => exact write_acts t (.client k) w
  | server input output =>
    have hread : (input.elim s s.onServerRead).proxy =
        s.proxy.run (input.elim [] fun chunk => [.serverRead chunk.1 chunk.2]) := by
      cases input with
      | none => rfl
      | some chunk => exact onServerRead_proxy s chunk
    unfold report reportActs
    dsimp only
    rw [Proxy.run, List.foldl_append]
    rw [Proxy.run] at hread
    rw [← hread]
    cases output with
    | none => rfl
    | some w => rfl

theorem round_acts (s : Poller) (r : Round) : (s.pollOnce r).proxy = s.proxy.run (s.acts r) := by
  have hvisits : (s.handleWriteEvents r.writes).proxy =
      s.proxy.run (trace (visit r.writes) (fun s o => s.writeActs o (r.writes o)) s s.writeEvents) :=
    traced Poller.proxy (fun s o => write_acts s o (r.writes o)) s.writeEvents s
  have hbatch : (r.batch.foldl report (s.handleWriteEvents r.writes)).proxy =
      (s.handleWriteEvents r.writes).proxy.run (trace report reportActs (s.handleWriteEvents r.writes) r.batch) :=
    traced Poller.proxy report_acts r.batch _
  unfold pollOnce acts
  rw [hbatch, hvisits]
  exact (List.foldl_append ..).symm

/-! ## What a run keeps -/

theorem listed_run (rounds : List Round) (s : Poller) (hl : Listed s) (ht : Each pollOnce Tidy s rounds) :
    Listed (s.run rounds) :=
  each_run (fun s r hl htidy => (call_pollOnce s r).listed hl htidy) rounds s hl ht

theorem calm_run (rounds : List Round) (s : Poller) (hl : Listed s) (hs : s.strayed = false)
    (hp : Promised s rounds) (ht : Each pollOnce Tidy s rounds) : (s.run rounds).strayed = false := by
  have hrun := each_run (I := fun s => Listed s ∧ s.strayed = false) (fun s r h hr => by
    refine ⟨(call_pollOnce s r).listed h.1 hr.2, ?_⟩
    exact (batch_safe hr.1).trans ((visits_safe h.1 r.writes).trans h.2)) rounds s ⟨hl, hs⟩ (hp.and ht)
  exact hrun.2

/-- Over every run that closes no connection that is on the list, or has a command in the
    queue: the list holds what has `EPOLLOUT`, and no reply goes to a connection that is gone. -/
theorem rounds_served (n : Nat) (h : 0 < n) (rounds : List Round) (hp : Promised (start n h) rounds)
    (ht : Each pollOnce Tidy (start n h) rounds)
    (hs : (Proxy.start n h).Each Proxy.Settled (trace pollOnce acts (start n h) rounds)) :
    let s := (start n h).run rounds
    s.strayed = false ∧ Listed s ∧ s.proxy.Safe ∧
      s.proxy = (Proxy.start n h).run (trace pollOnce acts (start n h) rounds) := by
  have hproxy : ((start n h).run rounds).proxy = (Proxy.start n h).run (trace pollOnce acts (start n h) rounds) :=
    traced Poller.proxy round_acts rounds (start n h)
  refine ⟨calm_run rounds _ (listed_start n h) rfl hp ht, listed_run rounds _ (listed_start n h) ht, ?_, hproxy⟩
  rw [hproxy]
  exact Proxy.live_served n h _ hs

instance (p : Proxy) : (e : Proxy.Event) → Decidable (Proxy.Settled p e)
  | .accept => inferInstanceAs (Decidable True)
  | .read _ _ _ => inferInstanceAs (Decidable True)
  | .write k w => inferInstanceAs
      (Decidable (∀ c ∈ p.connection k, (c.onWritable w).1 = .closed → ¬ Proxy.Waits p k))
  | .close k => inferInstanceAs (Decidable (¬ Proxy.Waits p k))
  | .serverRead _ _ => inferInstanceAs (Decidable True)
  | .serverWrite _ => inferInstanceAs (Decidable True)

/-- It leaves when it has it. -/
theorem rounds_served_ping :
    let rounds := ping ++ [⟨fun _ => .wrote 7, [.client 0 (some .ended) none]⟩]
    let s := (start 3 (by decide)).run rounds
    s.strayed = false ∧ Listed s ∧ s.proxy.Safe ∧
      s.proxy = (Proxy.start 3 (by decide)).run (trace pollOnce acts (start 3 (by decide)) rounds) := by
  apply rounds_served 3 (by decide)
  · unfold Promised
    decide
  · decide
  · unfold Proxy.Each
    decide

/-! ## Who is written -/

/-- What a visit that does not close leaves of the connections. -/
def written (s : Poller) (writes : Owner → WriteResult) (l : List Owner) (t : Poller) : Prop :=
  (∀ k, t.proxy.connection k = if .client k ∈ l then
    (s.proxy.connection k).map fun c => (c.onWritable (writes (.client k))).2 else s.proxy.connection k) ∧
  t.proxy.upstream = if .upstream ∈ l then s.proxy.upstream.onWritable (writes .upstream) else s.proxy.upstream

theorem visit_written (hl : Listed s) {o : Owner} (ho : o ∈ s.writeEvents) {writes : Owner → WriteResult}
    (hq : WriteQuiet s o (writes o)) : written s writes [o] (visit writes s o) := by
  cases o with
  | upstream =>
    refine ⟨fun j => ?_, rfl⟩
    simp only [List.mem_singleton, reduceCtorEq, if_false]
    rfl
  | client k =>
    obtain ⟨c, hc⟩ := live_of_listed hl ho
    have hopen : (c.onWritable (writes (.client k))).1 ≠ .closed := fun h => hq c hc h ho
    have hvisit : (visit writes s (.client k)).proxy =
        { s.proxy with pool := s.proxy.pool.set k (some (c.onWritable (writes (.client k))).2) } := by
      unfold visit onWritable
      dsimp only
      rw [hc]
      dsimp only
      rw [if_neg hopen]
      exact Proxy.write_stays hc hopen
    refine ⟨fun j => ?_, ?_⟩
    · rw [hvisit, Proxy.connection]
      dsimp only
      by_cases hj : j = k
      · subst hj
        rw [List.getElem?_set, if_pos rfl, if_pos (Proxy.live_lt ⟨c, hc⟩), if_pos (List.mem_singleton_self _), hc]
        rfl
      · rw [List.getElem?_set_ne (Ne.symm hj), if_neg (by simpa using hj)]
        rfl
    · rw [hvisit]
      rfl

theorem visits_written (writes : Owner → WriteResult) (l : List Owner) : ∀ s : Poller, Listed s → l.Nodup →
    (∀ o ∈ l, o ∈ s.writeEvents) → Each (visit writes) (fun s o => WriteQuiet s o (writes o)) s l →
      written s writes l (l.foldl (visit writes) s) := by
  induction l with
  | nil =>
    intro s _ _ _ _
    exact ⟨fun k => by simp, by simp⟩
  | cons o l ih =>
    intro s hl honce hmem hq
    obtain ⟨hnot, honce⟩ := List.nodup_cons.mp honce
    have hcall := call_onWritable s o (writes o)
    obtain ⟨hconn, hup⟩ := visit_written hl (hmem o List.mem_cons_self) hq.1
    have hlisted : Listed (visit writes s o) := hcall.listed hl hq.1
    -- the others keep their bits
    have hrest : ∀ x ∈ l, x ∈ (visit writes s o).writeEvents := by
      intro x hx
      have hne : x ≠ o := by
        rintro rfl
        exact hnot hx
      have hbit := (hl.bits x).mp (hmem x (List.mem_cons_of_mem o hx))
      refine (hlisted.bits x).mpr ?_
      cases x with
      | upstream =>
        show (visit writes s o).proxy.upstream.serverConn.writable = true
        rw [hup, if_neg (by simpa using hne)]
        exact hbit
      | client j =>
        rw [Proxy.writable, hconn, if_neg (by simpa using hne)]
        exact hbit
    obtain ⟨hconn', hup'⟩ := ih _ hlisted honce hrest hq.2
    refine ⟨fun j => ?_, ?_⟩
    · refine (hconn' j).trans ?_
      rw [hconn]
      by_cases hj : Owner.client j = o
      · subst hj
        simp [hnot]
      · simp [hj]
    · refine hup'.trans ?_
      rw [hup]
      by_cases ho : Owner.upstream = o
      · subst ho
        simp [hnot]
      · simp [ho]

/-- In every round of such a run each connection that has `EPOLLOUT` is written once, and no
    other, before anything is read. -/
theorem written_once (n : Nat) (h : 0 < n) (rounds : List Round) (last : Round)
    (ht : Each pollOnce Tidy (start n h) (rounds ++ [last])) :
    let s := (start n h).run rounds
    let t := s.handleWriteEvents last.writes
    (∀ k, t.proxy.connection k = (s.proxy.connection k).map fun c =>
      if c.writable then (c.onWritable (last.writes (.client k))).2 else c) ∧
    t.proxy.upstream = if s.proxy.upstream.serverConn.writable then s.proxy.upstream.onWritable (last.writes .upstream)
      else s.proxy.upstream := by
  obtain ⟨hbefore, hlast, -⟩ := (each_append rounds [last] _).mp ht
  have hl := listed_run rounds _ (listed_start n h) hbefore
  obtain ⟨hconn, hup⟩ := visits_written last.writes _ _ hl hl.once (fun _ ho => ho) hlast.1
  refine ⟨fun k => (hconn k).trans ?_, hup.trans ?_⟩
  · cases hc : ((start n h).run rounds).proxy.connection k with
    | none => simp
    | some c =>
      simp only [listed_client hl hc, Option.map_some]
      split <;> rfl
  · have hbit := hl.bits .upstream
    by_cases hw : ((start n h).run rounds).proxy.upstream.serverConn.writable = true
    · rw [if_pos (hbit.mpr hw), if_pos hw]
    · rw [if_neg fun hmem => hw (hbit.mp hmem), if_neg hw]

/-- The answer is written in the round after it came. -/
theorem written_once_ping :
    let s := (start 3 (by decide)).run ping
    let t := s.handleWriteEvents fun _ => .wrote 7
    (∀ k, t.proxy.connection k = (s.proxy.connection k).map fun c =>
      if c.writable then (c.onWritable (.wrote 7)).2 else c) ∧
    t.proxy.upstream = if s.proxy.upstream.serverConn.writable then s.proxy.upstream.onWritable (.wrote 7)
      else s.proxy.upstream :=
  written_once 3 (by decide) ping ⟨fun _ => .wrote 7, []⟩ (by decide)

end RedisProxy.System.Poller
