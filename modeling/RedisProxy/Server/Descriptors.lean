/-
  RedisProxy.Server.Descriptors — who has which descriptor (`Init` of epoll.cpp, server.cpp
  and upstream.cpp, `Accept` and `Close` of netio.cpp, `OnClosed` of connections.cpp).

  A client's connection is deleted when it is closed; its number stays. The upstream's is too,
  after `OnServerClosed` has connected it again (`Server.Recovery`): what it got then is open,
  and no event has it (`lost`).

  Proved, whatever the kernel answers:
  - `init_exact`: `Init` is `OK` exactly if every call it makes succeeds, and if not, leaves
    nothing open but what a field has.
  - `run_balanced`: over every run after that, each descriptor has one owner, none is closed
    twice, those of the pool have all options set, and the listener stays watched.
-/

import RedisProxy.Lib.Runs
import RedisProxy.Net.Sockets

namespace RedisProxy.Server

open Lib Lib.Slots Wire Net Net.Host

structure Process where
  host : Host
  /-- `epfd`, `-1` before `io::Init`. -/
  epfd : Int
  listener : Event
  /-- Behind `serverConn_`, until it is deleted. -/
  upstream : Option Event
  conns : List (Option Event)
  lost : List Int

namespace Process

variable (opt : NetIoOptions)

/-- What `accept` answers, call after call; none where it has not returned. -/
def acceptLoop : List (Option Nat) → Option (Option Nat)
  | [] => none
  | some errno :: answers => if errno = eintr then acceptLoop answers else some (some errno)
  | none :: _ => some none

/-- The event of a new connection, once `OnReadEvent` has set `EPOLLIN`. -/
def newClientConnection (p : Process) : Event := ((Event.create p.conns.length 0).setReadable p.host.poll true).2.1

/-- `Close` of a client's connection: `OnClosed` deletes it. -/
def close (p : Process) (k : Answers) (c : Nat) (rst : Bool) : Process :=
  match entry p.conns c with
  | none => p
  | some evt =>
    let (evt, host) := p.host.closeEvent k evt rst
    { p with host := host.destroy evt, conns := free p.conns c }

/-- `handler` is what `NewConnectionHandler` returns. -/
def accept (p : Process) (k : Answers) (answers : List (Option Nat)) (handler : Error) : Error × Process :=
  match acceptLoop answers with
  | none => (.ok, p)
  | some (some errno) => (.sys errno, p)
  | some none =>
    let (s, host) := p.host.socket
    match host.prepare k s opt.calls with
    | (.ok, host) =>
      if handler ≠ .ok then (handler, { p with host := host.close s })
      else
        let evt := { p.newClientConnection with fd := s }
        match host.attach k evt with
        | (.ok, host) => (.ok, { p with host := host, conns := p.conns ++ [some evt] })
        | (e, host) => (e, { p with host := host, conns := p.conns ++ [some evt] }.close k p.conns.length false)
    | (e, host) => (e, { p with host := host })

/-- `Close` of the upstream's connection: `OnServerClosed`, and then it is deleted. -/
def serverClose (p : Process) (k : Answers) : Process :=
  match p.upstream with
  | none => p
  | some evt =>
    let (evt, host) := p.host.closeEvent k evt false
    let (_, evt, host) := host.connect k opt evt
    { p with
      host := host.destroy evt
      upstream := none
      lost := if (host.file evt.fd).isSome then evt.fd :: p.lost else p.lost }

/-! ## Init -/

/-- Before `main`. -/
def blank (files : List (Option (List Syscall))) : Process :=
  ⟨⟨files, ⟨fun _ => none, [], 0⟩, false⟩, -1, .create 0 0, none, [], []⟩

/-- `io::Init`; `opens` is for `epoll_create`. -/
def ioInit (p : Process) (opens : Option Nat) : Error × Process :=
  match opens with
  | some _ => (.initFailed, p)
  | none => (.ok, { p with host := p.host.socket.2, epfd := p.host.socket.1 })

/-- `UpstreamPool::Init` and `Upstream::Init`, where there is no password. -/
def upstreamInit (p : Process) (connects reads : Answers) : Error × Process :=
  match p.host.connect connects opt (.create 0 0) with
  | (.ok, evt, host) =>
    let (e, evt, host) := host.setReadable reads evt true
    (e, { p with host := host, upstream := some evt })
  | (e, _, host) => (e, { p with host := host })

/-- `Server::Init`. -/
def init (p : Process) (creates : Option Nat) (listens connects reads : Answers) : Error × Process :=
  match p.ioInit creates with
  | (.ok, p) =>
    match p.host.listen listens opt p.listener with
    | (.ok, evt, host) => { p with host := host, listener := evt }.upstreamInit opt connects reads
    | (e, evt, host) => (e, { p with host := host, listener := evt })
  | (e, p) => (e, p)

/-! ## Runs -/

inductive Act where
  | accept (k : Answers) (answers : List (Option Nat)) (handler : Error)
  | close (k : Answers) (c : Nat) (rst : Bool)
  /-- Of the upstream's connection, or a client's. -/
  | setReadable (k : Answers) (who : Option Nat) (flag : Bool)
  | setWritable (who : Option Nat) (flag : Bool)
  | serverClose (k : Answers)

def event (p : Process) : Option Nat → Option Event
  | none => p.upstream
  | some c => entry p.conns c

def put (p : Process) (who : Option Nat) (evt : Event) (host : Host) : Process :=
  match who with
  | none => { p with host := host, upstream := some evt }
  | some c => { p with host := host, conns := p.conns.set c (some evt) }

def step (p : Process) : Act → Process
  | .accept k answers handler => (p.accept opt k answers handler).2
  | .close k c rst => p.close k c rst
  | .setReadable k who flag =>
    match p.event who with
    | none => p
    | some evt => p.put who (p.host.setReadable k evt flag).2.1 (p.host.setReadable k evt flag).2.2
  | .setWritable who flag =>
    match p.event who with
    | none => p
    | some evt =>
      let (evt, poll) := evt.setWritable p.host.poll flag
      p.put who evt { p.host with poll := poll }
  | .serverClose k => p.serverClose opt k

def run (p : Process) (acts : List Act) : Process := acts.foldl (step opt) p

/-! ## Who has what -/

/-- The upstream's descriptor and those of the pool, with the calls that were made on them. -/
def held (p : Process) : List (Int × List Syscall) :=
  p.upstream.toList.map (fun evt => (evt.fd, opt.connectCalls)) ++
    p.conns.reduceOption.map fun evt => (evt.fd, opt.calls)

/-- The others: nobody closes them. -/
def fixed (p : Process) (given : List Piece) : List Piece :=
  p.lost.map (fun fd => ⟨fd, opt.connectCalls, none⟩) ++
    ⟨p.epfd, [], none⟩ :: ⟨p.listener.fd, opt.listenCalls, some ⟨true, false⟩⟩ :: given

structure Balanced (p : Process) (given : List Piece) : Prop where
  owned : p.host.Owned (p.fixed opt given) (p.held opt)
  lost : p.lost.length + p.upstream.toList.length ≤ 1

variable {opt} {p : Process} {given : List Piece} {k : Answers} {evt : Event}

/-- A connection of the pool has its own, and the rest is as if it were gone. -/
theorem held_free {c : Nat} (hc : entry p.conns c = some evt) (host : Host) :
    (p.held opt).Perm ((evt.fd, opt.calls) :: { p with host := host, conns := free p.conns c }.held opt) :=
  (((entries_free hc).map _).append_left _).trans List.perm_middle

theorem held_upstream (hup : p.upstream = some evt) (host : Host) (lost : List Int) :
    p.held opt = (evt.fd, opt.connectCalls) :: { p with host := host, upstream := none, lost := lost }.held opt := by
  simp [held, hup]

/-! ## A step -/

theorem put_balanced (hb : p.Balanced opt given) {who : Option Nat} (he : p.event who = some evt) {evt' : Event}
    {host : Host} (hfd : evt'.fd = evt.fd)
    (hkeeps : ∀ cs w l, p.host.Holds (⟨evt.fd, cs, w⟩ :: l) → ∃ w', host.Holds (⟨evt.fd, cs, w'⟩ :: l)) :
    (p.put who evt' host).Balanced opt given := by
  cases who with
  | none =>
    have hup : p.upstream = some evt := he
    refine ⟨?_, ?_⟩
    · have ho := hb.owned
      rw [held_upstream hup host p.lost] at ho
      obtain ⟨w, L, hh, -, hput, -⟩ := ho.focus
      obtain ⟨w', hh'⟩ := hkeeps _ _ _ hh
      rw [held_upstream (p := p.put none evt' host) rfl host p.lost, hfd]
      exact hput host w' hh'
    · have hlost := hb.lost
      rw [hup] at hlost
      exact hlost
  | some c =>
    have hc : entry p.conns c = some evt := he
    refine ⟨?_, hb.lost⟩
    have hheld : (p.put (some c) evt' host).held opt = p.held opt :=
      congrArg (_ ++ ·) (entries_put (fun evt : Event => (evt.fd, opt.calls)) hc (by rw [hfd]))
    have hmine : (p.held opt).Perm _ := held_free hc host
    obtain ⟨w, L, hh, -, hput, -⟩ := (hb.owned.perm hmine).focus
    obtain ⟨w', hh'⟩ := hkeeps _ _ _ hh
    rw [hheld]
    exact (hput host w' hh').perm hmine.symm

theorem close_balanced (hb : p.Balanced opt given) (k : Answers) (c : Nat) (rst : Bool) :
    (p.close k c rst).Balanced opt given := by
  unfold close
  cases hc : entry p.conns c with
  | none => exact hb
  | some evt =>
    obtain ⟨w, L, hh, hgone, -, -⟩ := (hb.owned.perm (held_free hc p.host)).focus
    obtain ⟨hfd, hclosed⟩ := closeEvent_holds (k := k) hh rst
    refine ⟨hgone _ ?_, hb.lost⟩
    apply destroy_holds hclosed
    rw [hfd]
    exact hh.not_mem

/-- A connection is added with its descriptor. -/
theorem added_balanced (hb : p.Balanced opt given) {host : Host}
    (ho : host.Owned (p.fixed opt given) ((evt.fd, opt.calls) :: p.held opt)) :
    { p with host := host, conns := p.conns ++ [some evt] }.Balanced opt given := by
  refine ⟨ho.perm ?_, hb.lost⟩
  have hheld : { p with host := host, conns := p.conns ++ [some evt] }.held opt =
      p.held opt ++ [(evt.fd, opt.calls)] := by
    simp [held, List.reduceOption_append]
  rw [hheld]
  exact (List.perm_append_singleton _ _).symm

theorem accept_balanced (hb : p.Balanced opt given) (k : Answers) (answers : List (Option Nat)) (handler : Error) :
    (p.accept opt k answers handler).2.Balanced opt given := by
  unfold accept
  split
  · exact hb
  · exact hb
  · obtain ⟨L, hh, hsame, hnew, -⟩ := hb.owned.frame
    dsimp only
    have hcases := prepare_cases (k := k) opt.calls (socket_holds hh)
    rcases hprepare : p.host.socket.2.prepare k p.host.socket.1 opt.calls with ⟨e, host⟩
    rw [hprepare] at hcases
    dsimp only at hcases
    rcases hcases with ⟨-, rfl, hset⟩ | ⟨-, hfailed, hclosed⟩
    · dsimp only
      by_cases hhandler : handler ≠ .ok
      · rw [if_pos hhandler]
        exact ⟨hsame _ (close_holds hset), hb.lost⟩
      · rw [if_neg hhandler]
        let evt := { p.newClientConnection with fd := p.host.socket.1 }
        have hattach := attach_cases k evt hset
        rcases hr : host.attach k evt with ⟨e, host'⟩
        rw [hr] at hattach
        dsimp only at hattach
        rcases hattach with ⟨-, rfl, hwatched⟩ | ⟨-, hfailed, hunwatched⟩
        · exact added_balanced hb (hnew _ _ _ _ hwatched)
        · have hadded := added_balanced hb (hnew _ _ _ _ hunwatched)
          cases e with
          | ok => exact absurd rfl hfailed
          | _ => exact close_balanced hadded k p.conns.length false
    · cases e with
      | ok => exact absurd rfl hfailed
      | _ => exact ⟨hsame _ hclosed, hb.lost⟩

theorem serverClose_balanced (hb : p.Balanced opt given) (k : Answers) : (p.serverClose opt k).Balanced opt given := by
  unfold serverClose
  cases hup : p.upstream with
  | none => exact hb
  | some evt =>
    have ho := hb.owned
    rw [held_upstream hup p.host p.lost] at ho
    obtain ⟨w, L, hh, hgone, -, hleft⟩ := ho.focus
    obtain ⟨hfd, hclosed⟩ := closeEvent_holds (k := k) hh false
    have hlost : p.lost.length = 0 := by
      have hlost := hb.lost
      rw [hup] at hlost
      simpa using hlost
    have hnot : (p.host.closeEvent k evt false).1.fd ∉ L.map Piece.fd := by
      rw [hfd]
      exact hh.not_mem
    have hleaves := connect_destroy hclosed hnot k opt
    dsimp only at hleaves ⊢
    rcases hleaves with ⟨-, hfile, hnone⟩ | ⟨-, hfile, hopen⟩
    · rw [if_neg (by simp [hfile])]
      exact ⟨hgone _ hnone, by simp [hlost]⟩
    · rw [if_pos hfile]
      exact ⟨hleft _ _ hopen, by simp [hlost]⟩

theorem step_balanced (hb : p.Balanced opt given) (act : Act) : (p.step opt act).Balanced opt given := by
  cases act with
  | accept k answers handler => exact accept_balanced hb k answers handler
  | close k c rst => exact close_balanced hb k c rst
  | setReadable k who flag =>
    unfold step
    dsimp only
    cases he : p.event who with
    | none => exact hb
    | some evt =>
      apply put_balanced hb he
      · exact setReadable_fd k p.host evt flag
      · intro cs w l hh
        exact setReadable_holds hh k flag
  | setWritable who flag =>
    unfold step
    dsimp only
    cases he : p.event who with
    | none => exact hb
    | some evt =>
      apply put_balanced hb he
      · exact Event.setWritable_fd flag
      · intro cs w l hh
        refine ⟨_, hh.repoll fun j _ => ?_⟩
        rw [Event.setWritable_kernel]
  | serverClose k => exact serverClose_balanced hb k

/-! ## After Init -/

/-- What the process was given. -/
def givenOf (files : List (Option (List Syscall))) : List Piece := (items files).map fun x => ⟨x.1, x.2, none⟩

/-- The descriptors a field has. -/
def fields (p : Process) : List Int := p.epfd :: p.listener.fd :: p.upstream.toList.map Event.fd

theorem blank_holds (files : List (Option (List Syscall))) : (blank files).host.Holds (givenOf files) := by
  refine ⟨?_, ?_, fun _ _ => rfl, rfl⟩
  · show ((items files).map fun x => _).Perm _
    rw [givenOf, List.map_map]
    exact List.Perm.refl _
  · intro x hx
    obtain ⟨y, -, rfl⟩ := List.mem_map.mp hx
    rfl

/-- What is open of the process's own, and for what it is watched if `good`, which is all that
    can go well. -/
structure Own (opt : NetIoOptions) (good : Prop) (e : Error) (p : Process) (given own : List Piece) : Prop where
  holds : p.host.Holds (own ++ given)
  fields : ∀ x ∈ own, x.fd ∈ p.fields
  ready : good ∧ e = .ok ∧ (∃ evt, p.upstream = some evt ∧ own = [⟨evt.fd, opt.connectCalls, some ⟨true, false⟩⟩,
    ⟨p.listener.fd, opt.listenCalls, some ⟨true, false⟩⟩, ⟨p.epfd, [], none⟩]) ∨ ¬ good ∧ e ≠ .ok
  empty : p.conns = [] ∧ p.lost = []

theorem upstreamInit_own (opt : NetIoOptions) (p : Process) (hempty : p.conns = [] ∧ p.lost = [])
    (hh : p.host.Holds (⟨p.listener.fd, opt.listenCalls, some ⟨true, false⟩⟩ :: ⟨p.epfd, [], none⟩ :: given))
    (connects reads : Answers) :
    ∃ own, Own opt (Ready connects opt.connectCalls ∧ reads.calls .epollCtl = none)
      (p.upstreamInit opt connects reads).1 (p.upstreamInit opt connects reads).2 given own := by
  have hcases := connect_cases hh connects opt (.create 0 0) rfl
  unfold upstreamInit
  rcases hconnect : p.host.connect connects opt (.create 0 0) with ⟨e, evt, host⟩
  rw [hconnect] at hcases
  dsimp only at hcases
  rcases hcases with ⟨hready, rfl, s, rfl, hopen⟩ | ⟨hnot, hfailed, hnone⟩
  · dsimp only
    have hread := setReadable_new reads { Event.create 0 0 with fd := s } hopen rfl
    have hfd := setReadable_fd reads host { Event.create 0 0 with fd := s } true
    rcases hset : host.setReadable reads { Event.create 0 0 with fd := s } true with ⟨e, evt, host'⟩
    rw [hset] at hread hfd
    dsimp only at hread hfd ⊢
    subst hfd
    rcases hread with ⟨hadd, rfl, hwatched⟩ | ⟨hadd, hfailed, hunwatched⟩
    · exact ⟨[_, _, _], hwatched, by simp [fields], Or.inl ⟨⟨hready, hadd⟩, rfl, evt, rfl, rfl⟩, hempty⟩
    · exact ⟨[_, _, _], hunwatched, by simp [fields], Or.inr ⟨fun h => hadd h.2, hfailed⟩, hempty⟩
  · cases e with
    | ok => exact absurd rfl hfailed
    | _ => exact ⟨[_, _], hnone, by simp [fields], Or.inr ⟨fun h => hnot h.1, hfailed⟩, hempty⟩

/-- Every call that `Init` makes succeeds. -/
def Granted (opt : NetIoOptions) (creates : Option Nat) (listens connects reads : Answers) : Prop :=
  creates = none ∧ (Ready listens opt.listenCalls ∧ listens.calls .epollCtl = none) ∧
    Ready connects opt.connectCalls ∧ reads.calls .epollCtl = none

instance (opt : NetIoOptions) (creates : Option Nat) (listens connects reads : Answers) :
    Decidable (Granted opt creates listens connects reads) := inferInstanceAs (Decidable (_ ∧ _))

theorem init_own (opt : NetIoOptions) (files : List (Option (List Syscall))) (creates : Option Nat)
    (listens connects reads : Answers) :
    ∃ own, Own opt (Granted opt creates listens connects reads)
      ((blank files).init opt creates listens connects reads).1
      ((blank files).init opt creates listens connects reads).2 (givenOf files) own := by
  have hblank := blank_holds files
  unfold init ioInit
  cases creates with
  | some errno => exact ⟨[], hblank, by simp, Or.inr ⟨fun h => (by cases h.1), by simp⟩, rfl, rfl⟩
  | none =>
    dsimp only
    have hcases := listen_cases (socket_holds hblank) listens opt (blank files).listener
    rcases hlisten : (blank files).host.socket.2.listen listens opt (blank files).listener with ⟨e, evt, host⟩
    rw [hlisten] at hcases
    dsimp only at hcases
    rcases hcases with ⟨hready, rfl, hopen⟩ | ⟨hnot, hfailed, own, hleft, hfd⟩
    · obtain ⟨own, hown⟩ := upstreamInit_own opt ⟨host, (blank files).host.socket.1, evt, none, [], []⟩ ⟨rfl, rfl⟩
        hopen connects reads
      refine ⟨own, hown.holds, hown.fields, ?_, hown.empty⟩
      rcases hown.ready with ⟨hgood, hok, hall⟩ | ⟨hbad, hfailed⟩
      · exact Or.inl ⟨⟨rfl, hready, hgood⟩, hok, hall⟩
      · exact Or.inr ⟨fun h => hbad h.2.2, hfailed⟩
    · cases e with
      | ok => exact absurd rfl hfailed
      | _ =>
        refine ⟨own ++ [⟨(blank files).host.socket.1, [], none⟩], ?_, ?_, Or.inr ⟨fun h => hnot h.2.1, hfailed⟩,
          rfl, rfl⟩
        · rw [List.append_assoc]
          exact hleft
        · intro x hx
          rcases List.mem_append.mp hx with hx | hx
          · simp [fields, hfd x hx]
          · obtain rfl := List.mem_singleton.mp hx
            simp [fields]

theorem init_balanced (files : List (Option (List Syscall))) {creates : Option Nat} {listens connects reads : Answers}
    (h : ((blank files).init opt creates listens connects reads).1 = .ok) :
    ((blank files).init opt creates listens connects reads).2.Balanced opt (givenOf files) := by
  obtain ⟨own, hown⟩ := init_own opt files creates listens connects reads
  obtain ⟨hconns, hlost⟩ := hown.empty
  rcases hown.ready with ⟨-, -, evt, hup, rfl⟩ | ⟨-, hfailed⟩
  · refine ⟨⟨[⟨evt.fd, opt.connectCalls, some ⟨true, false⟩⟩], ?_, hown.holds.perm ?_⟩, by simp [hup, hlost]⟩
    · simp [held, hup, hconns]
    · simp only [fixed, hlost, List.map_nil, List.nil_append, List.cons_append]
      exact (List.Perm.swap ..).cons _
  · exact absurd h hfailed

theorem init_upstream (files : List (Option (List Syscall))) {creates : Option Nat} {listens connects reads : Answers}
    (h : ((blank files).init opt creates listens connects reads).1 = .ok) :
    ((blank files).init opt creates listens connects reads).2.upstream.isSome = true ∧
      ((blank files).init opt creates listens connects reads).2.conns = [] := by
  obtain ⟨own, hown⟩ := init_own opt files creates listens connects reads
  rcases hown.ready with ⟨-, -, evt, hup, -⟩ | ⟨-, hfailed⟩
  · exact ⟨by rw [hup]; rfl, hown.empty.1⟩
  · exact absurd h hfailed

/-! ## Over every run -/

/-- What is open, with the calls made on it. -/
def opened (p : Process) : List (Int × List Syscall) := (items p.host.files).map fun x => ((x.1 : Int), x.2)

theorem holds_opened {l : List Piece} (hh : p.host.Holds l) : p.opened.Perm (l.map fun x => (x.fd, x.calls)) := hh.files

theorem givenOf_calls (files : List (Option (List Syscall))) :
    (givenOf files).map (fun x => (x.fd, x.calls)) = (blank files).opened := by
  rw [givenOf, List.map_map]
  rfl

/-- Whatever the kernel answers: `Init` is `OK` exactly if every call it makes succeeds; if not,
    what it leaves open some field has, and what the process was given it leaves as it was. -/
theorem init_exact (opt : NetIoOptions) (files : List (Option (List Syscall))) (creates : Option Nat)
    (listens connects reads : Answers) :
    let r := (blank files).init opt creates listens connects reads
    (r.1 = .ok ↔ Granted opt creates listens connects reads) ∧ r.2.host.stray = false ∧
      ∃ own : List (Int × List Syscall), r.2.opened.Perm (own ++ (blank files).opened) ∧
        (∀ x ∈ own, x.1 ∈ r.2.fields) ∧
        (r.1 = .ok → own = r.2.held opt ++ [(r.2.listener.fd, opt.listenCalls), (r.2.epfd, [])] ∧
          r.2.upstream.isSome = true ∧ ∀ fd ∈ r.2.listener.fd :: r.2.upstream.toList.map Event.fd,
            r.2.host.poll.kernel fd = some ⟨true, false⟩) := by
  obtain ⟨own, hown⟩ := init_own opt files creates listens connects reads
  dsimp only
  refine ⟨?_, hown.holds.stray, own.map fun x => (x.fd, x.calls), ?_, ?_, ?_⟩
  · rcases hown.ready with ⟨hgood, hok, -⟩ | ⟨hbad, hfailed⟩
    · exact iff_of_true hok hgood
    · exact iff_of_false hfailed hbad
  · rw [← givenOf_calls, ← List.map_append]
    exact holds_opened hown.holds
  · intro x hx
    obtain ⟨y, hy, rfl⟩ := List.mem_map.mp hx
    exact hown.fields y hy
  · intro hok
    rcases hown.ready with ⟨-, -, evt, hup, rfl⟩ | ⟨-, hfailed⟩
    · refine ⟨?_, by rw [hup]; rfl, ?_⟩
      · simp [held, hup, hown.empty.1]
      · intro fd hfd
        rw [hup] at hfd
        simp only [Option.toList_some, List.map_cons, List.map_nil, List.mem_cons, List.not_mem_nil, or_false] at hfd
        rcases hfd with rfl | rfl
        · exact hown.holds.watched ⟨_, opt.listenCalls, some ⟨true, false⟩⟩ (by simp)
        · exact hown.holds.watched ⟨_, opt.connectCalls, some ⟨true, false⟩⟩ (by simp)
    · exact absurd hok hfailed

theorem balanced_opened {files : List (Option (List Syscall))} (hb : p.Balanced opt (givenOf files)) :
    p.opened.Perm (p.held opt ++ (p.lost.map (fun fd => (fd, opt.connectCalls)) ++
      (p.epfd, []) :: (p.listener.fd, opt.listenCalls) :: (blank files).opened)) := by
  obtain ⟨pieces, hheld, hh⟩ := hb.owned
  have hopened : p.opened.Perm _ := holds_opened hh
  rw [List.map_append] at hopened
  refine hopened.trans ((hheld.append_right _).trans ?_)
  simp [fixed, givenOf_calls, Function.comp_def]

theorem opened_once (p : Process) : (p.opened.map Prod.fst).Nodup := by
  have hmap : p.opened.map Prod.fst = ((items p.host.files).map Prod.fst).map fun i : Nat => (i : Int) := by
    simp [opened]
  rw [hmap]
  exact (items_once p.host.files).map Nat.cast_injective

theorem run_keeps (hb : p.Balanced opt given) (acts : List Act) : (p.run opt acts).Balanced opt given := by
  unfold run
  induction acts generalizing p with
  | nil => exact hb
  | cons act acts ih => exact ih (step_balanced hb act)

/-- After an `Init` that is `OK`, over every run, whatever the kernel answers: what is open is
    what the process was given, the epoll set's, the listener's, the upstream's or what one
    reconnect lost, and that of each connection of the pool with all that the options ask for
    set; each is open once, none is closed twice, and the listener stays watched. -/
theorem run_balanced (files : List (Option (List Syscall))) (creates : Option Nat)
    (listens connects reads : Answers) (h : ((blank files).init opt creates listens connects reads).1 = .ok)
    (acts : List Act) :
    let p := ((blank files).init opt creates listens connects reads).2.run opt acts
    p.opened.Perm (p.held opt ++ (p.lost.map (fun fd => (fd, opt.connectCalls)) ++
      (p.epfd, []) :: (p.listener.fd, opt.listenCalls) :: (blank files).opened)) ∧
    (p.opened.map Prod.fst).Nodup ∧ p.host.stray = false ∧ p.lost.length + p.upstream.toList.length ≤ 1 ∧
    p.host.poll.kernel p.listener.fd = some ⟨true, false⟩ ∧
    ∀ fd, p.host.poll.kernel fd ≠ none → fd = p.listener.fd ∨ fd ∈ (p.held opt).map Prod.fst := by
  have hb := run_keeps (init_balanced files h) acts
  dsimp only
  generalize ((blank files).init opt creates listens connects reads).2.run opt acts = p at hb
  obtain ⟨pieces, hheld, hh⟩ := hb.owned
  refine ⟨balanced_opened hb, opened_once p, hh.stray, hb.lost, ?_, ?_⟩
  · exact hh.watched ⟨_, opt.listenCalls, some ⟨true, false⟩⟩ (by simp [fixed])
  · intro fd hfd
    obtain ⟨x, hx, rfl⟩ : ∃ x ∈ pieces ++ p.fixed opt (givenOf files), x.fd = fd := by
      apply Classical.byContradiction
      intro hnone
      exact hfd (hh.others fd fun hmem => hnone (List.mem_map.mp hmem))
    rw [hh.watched x hx] at hfd
    rcases List.mem_append.mp hx with hx | hx
    · refine Or.inr (List.mem_map.mpr ⟨(x.fd, x.calls), ?_, rfl⟩)
      exact hheld.subset (List.mem_map.mpr ⟨x, hx, rfl⟩)
    · -- the others are watched for nothing, but for the listener
      simp only [fixed, givenOf, List.mem_append, List.mem_cons, List.mem_map] at hx
      rcases hx with ⟨fd, -, rfl⟩ | rfl | rfl | ⟨y, -, rfl⟩
      · exact absurd rfl hfd
      · exact absurd rfl hfd
      · exact Or.inl rfl
      · exact absurd rfl hfd

/-- A `connect` that is in progress, a client, one more that cannot be registered, and the
    upstream hangs up. -/
theorem run_balanced_lost :
    let grants : Answers := ⟨.ok, none, fun _ => none⟩
    let slow : Answers := ⟨.ok, none, fun c => if c = .connect then some einprogress else none⟩
    let full : Answers := ⟨.ok, none, fun c => if c = .epollCtl then some 28 else none⟩
    let p := ((blank [some [], some [], some []]).init .default none grants slow grants).2.run .default
      [.accept grants [some eintr, none] .ok, .accept full [none] .ok, .serverClose slow]
    p.opened.Perm (p.held .default ++ (p.lost.map (fun fd => (fd, NetIoOptions.default.connectCalls)) ++
      (p.epfd, []) :: (p.listener.fd, NetIoOptions.default.listenCalls) ::
        (blank [some [], some [], some []]).opened)) ∧
    (p.opened.map Prod.fst).Nodup ∧ p.host.stray = false ∧ p.lost.length + p.upstream.toList.length ≤ 1 ∧
    p.host.poll.kernel p.listener.fd = some ⟨true, false⟩ ∧
    ∀ fd, p.host.poll.kernel fd ≠ none → fd = p.listener.fd ∨ fd ∈ (p.held .default).map Prod.fst :=
  run_balanced _ none _ _ _ rfl _

end Process

end RedisProxy.Server
