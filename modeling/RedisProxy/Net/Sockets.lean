/-
  RedisProxy.Net.Sockets — descriptors, and what is called on them (netio.cpp, `Attach` and
  `RemoveNotify` of epoll.cpp, the constructor and destructor of io.h).

  The kernel has a table of what is open, each with the calls that were made on it and
  succeeded; a new descriptor is the lowest that is free. Whether a call succeeds is a
  parameter (`Answers`). `stray` is set by a `close` of what is not open.

  `Host.Holds` says who has what: the open descriptors are those of a list, each once, and
  what is watched is open. Every function is given the piece it works on and leaves the rest.

  Proved: `establish_cases`, `prepare_cases`, a new socket has been through all its calls, or
  is closed again and nothing is left of it; `closeEvent_holds`, `destroy_holds`.
-/

import RedisProxy.Lib.Slots
import RedisProxy.Net.WriteList

namespace RedisProxy.Net

open Lib Lib.Slots Wire

inductive SockOpt where
  | linger
  | reuseAddr
  | noDelay
  | keepAlive
  | keepIdle
  | keepIntvl
  | keepCnt
  deriving DecidableEq, Repr

inductive Syscall where
  /-- `F_GETFL`. -/
  | getFlags
  /-- `F_SETFL` with `O_NONBLOCK`. -/
  | setNonblock
  | setOpt (name : SockOpt) (value : Int)
  | bind
  | listen (backlog : Int)
  | connect
  | epollCtl
  deriving DecidableEq, Repr

/-- An `errno` for each call that fails. -/
structure Answers where
  /-- Of `GetAddrInfo`. -/
  resolve : Error
  /-- Of `socket`. -/
  opens : Option Nat
  calls : Syscall → Option Nat

def eintr : Nat := 4

def einprogress : Nat := 115

structure NetIoOptions where
  listenBacklog : Int
  socketNoDelay : Bool
  socketNonBlock : Bool
  socketKeepAlive : Int
  deriving DecidableEq, Repr

def NetIoOptions.default : NetIoOptions := ⟨1024, true, true, 0⟩

structure Host where
  files : List (Option (List Syscall))
  poll : Poll
  stray : Bool

/-! ## What is set on a socket -/

def setCloseNoWait : List Syscall := [.setOpt .linger 0]

def setNonblock : List Syscall := [.getFlags, .setNonblock]

def setReuseAddr : List Syscall := [.setOpt .reuseAddr 1]

def setNoDelay : List Syscall := [.setOpt .noDelay 1]

def setKeepAlive (interval : Int) : List Syscall :=
  [.setOpt .keepAlive 1, .setOpt .keepIdle interval,
    .setOpt .keepIntvl (if interval.tdiv 3 = 0 then 1 else interval.tdiv 3), .setOpt .keepCnt 3]

/-- Of `Connect` and `Accept`. -/
def NetIoOptions.calls (opt : NetIoOptions) : List Syscall :=
  (if opt.socketNoDelay then setNoDelay else []) ++ (if opt.socketNonBlock then setNonblock else []) ++
    if 0 < opt.socketKeepAlive then setKeepAlive opt.socketKeepAlive else []

/-- Of `Listen`. -/
def NetIoOptions.listenCalls (opt : NetIoOptions) : List Syscall :=
  setNonblock ++ setReuseAddr ++ [.bind, .listen opt.listenBacklog]

/-- Of `Connect`, to the end. -/
def NetIoOptions.connectCalls (opt : NetIoOptions) : List Syscall := opt.calls ++ [.connect]

namespace Host

def file (h : Host) (fd : Int) : Option (List Syscall) := if fd < 0 then none else entry h.files fd.toNat

/-- A new descriptor, as `socket`, `accept` and `epoll_create` give it. -/
def socket (h : Host) : Int × Host := (lowest h.files, { h with files := take [] h.files })

def close (h : Host) (fd : Int) : Host :=
  if (h.file fd).isSome then { h with files := free h.files fd.toNat, poll := h.poll.closeFd fd }
  else { h with stray := true }

def did (h : Host) (fd : Int) (c : Syscall) : Host := { h with files := change (· ++ [c]) h.files fd.toNat }

/-- A `connect` in progress counts as made. -/
def call (k : Answers) (h : Host) (fd : Int) (c : Syscall) : Error × Host :=
  match k.calls c with
  | none => (.ok, h.did fd c)
  | some errno => if c = .connect ∧ errno = einprogress then (.ok, h.did fd c) else (.sys errno, h)

/-- One after the other; the first that fails ends it. -/
def callAll (k : Answers) (h : Host) (fd : Int) : List Syscall → Error × Host
  | [] => (.ok, h)
  | c :: calls =>
    match h.call k fd c with
    | (.ok, h) => h.callAll k fd calls
    | (e, h) => (e, h)

/-- After a call that fails the socket is closed. -/
def prepare (k : Answers) (h : Host) (s : Int) (calls : List Syscall) : Error × Host :=
  match h.callAll k s calls with
  | (.ok, h) => (.ok, h)
  | (e, h) => (e, h.close s)

def attach (k : Answers) (h : Host) (evt : Event) : Error × Host :=
  match k.calls .epollCtl with
  | none => ((evt.attach h.poll).1, { h with poll := (evt.attach h.poll).2 })
  | some errno => if evt.fd = -1 then (.initFailed, h) else if evt.events = .zero then (.ok, h) else (.sys errno, h)

def setReadable (k : Answers) (h : Host) (evt : Event) (flag : Bool) : Error × Event × Host :=
  match k.calls .epollCtl with
  | none =>
    let (e, evt, poll) := evt.setReadable h.poll flag
    (e, evt, { h with poll := poll })
  | some errno =>
    if evt.events.has .epollIn = flag then (.ok, evt, h)
    else (if evt.fd = -1 then .ok else .sys errno, { evt with events := evt.events.put flag .epollIn }, h)

/-- `Listen` and `Connect`. -/
def establish (k : Answers) (h : Host) (evt : Event) (events : Mask) (calls : List Syscall) : Error × Event × Host :=
  if k.resolve ≠ .ok then (k.resolve, evt, h)
  else
    match k.opens with
    | some errno => (.sys errno, evt, h)
    | none =>
      match h.socket.2.prepare k h.socket.1 calls with
      | (.ok, h') =>
        let evt := { evt with fd := h.socket.1, events := events }
        ((h'.attach k evt).1, evt, (h'.attach k evt).2)
      | (e, h') => (e, evt, h')

def listen (k : Answers) (opt : NetIoOptions) (h : Host) (evt : Event) : Error × Event × Host :=
  h.establish k evt ⟨true, false⟩ opt.listenCalls

def connect (k : Answers) (opt : NetIoOptions) (h : Host) (evt : Event) : Error × Event × Host :=
  h.establish k evt evt.events opt.connectCalls

/-- `Close`, up to `OnClosed`. -/
def closeEvent (k : Answers) (h : Host) (evt : Event) (rst : Bool) : Event × Host :=
  let (_, evt, poll) := evt.removeNotify h.poll
  let h := { h with poll := poll }
  let h := if rst then (h.callAll k evt.fd setCloseNoWait).2 else h
  (evt, h.close evt.fd)

/-- `~Event`. -/
def destroy (h : Host) (evt : Event) : Host :=
  if evt.fd = -1 then h else { h with poll := (evt.removeNotify h.poll).2.2 }

/-! ## Who has what -/

end Host

/-- An open descriptor, with what was called on it and what it is watched for. -/
structure Piece where
  fd : Int
  calls : List Syscall
  watch : Option Mask
  deriving DecidableEq, Repr

namespace Host

/-- What is open, and watched, is what the list says. -/
structure Holds (h : Host) (l : List Piece) : Prop where
  files : Slots.Holds (fun i => (i : Int)) h.files (l.map fun x => (x.fd, x.calls))
  watched : ∀ x ∈ l, h.poll.kernel x.fd = x.watch
  others : ∀ fd, fd ∉ l.map Piece.fd → h.poll.kernel fd = none
  stray : h.stray = false

variable {k : Answers} {h : Host} {evt : Event} {fd : Int} {cs : List Syscall} {w : Option Mask} {l l' : List Piece}

theorem Holds.perm (hh : h.Holds l) (hl : l.Perm l') : h.Holds l' := by
  refine ⟨hh.files.perm (hl.map _), ?_, ?_, hh.stray⟩
  · intro x hx
    exact hh.watched x (hl.mem_iff.mpr hx)
  · intro fd hfd
    apply hh.others
    intro hmem
    exact hfd ((hl.map Piece.fd).mem_iff.mp hmem)

theorem Holds.once (hh : h.Holds l) : (l.map Piece.fd).Nodup := by
  have hnodup := hh.files.once Nat.cast_injective
  rwa [List.map_map] at hnodup

/-- The slot of a piece. -/
theorem Holds.slot (hh : h.Holds (⟨fd, cs, w⟩ :: l)) : ∃ i : Nat, fd = i ∧ entry h.files i = some cs := by
  obtain ⟨i, hi, he⟩ := hh.files.mem.mp (List.mem_cons_self (a := (fd, cs)))
  exact ⟨i, hi.symm, he⟩

theorem Holds.not_mem (hh : h.Holds (⟨fd, cs, w⟩ :: l)) : fd ∉ l.map Piece.fd :=
  (List.nodup_cons.mp hh.once).1

theorem Holds.nonneg (hh : h.Holds (⟨fd, cs, w⟩ :: l)) : 0 ≤ fd := by
  obtain ⟨i, rfl, -⟩ := hh.slot
  exact Int.natCast_nonneg i

theorem Holds.file_some (hh : h.Holds (⟨fd, cs, w⟩ :: l)) : h.file fd = some cs := by
  obtain ⟨i, rfl, hi⟩ := hh.slot
  rw [file, if_neg (by omega), Int.toNat_natCast, hi]

theorem Holds.file_none (hh : h.Holds l) (hfd : fd ∉ l.map Piece.fd) : h.file fd = none := by
  unfold file
  split
  · rfl
  · rename_i hneg
    cases hi : entry h.files fd.toNat with
    | none => rfl
    | some cs =>
      have hmem := hh.files.mem.mpr ⟨fd.toNat, Int.toNat_of_nonneg (Int.not_lt.mp hneg), hi⟩
      obtain ⟨x, hx, he⟩ := List.mem_map.mp hmem
      exact absurd (List.mem_map.mpr ⟨x, hx, congrArg Prod.fst he⟩) hfd

/-- Only what is watched at `fd` changes. -/
theorem Holds.repoll (hh : h.Holds (⟨fd, cs, w⟩ :: l)) {p : Poll} (hp : ∀ j, j ≠ fd → p.kernel j = h.poll.kernel j) :
    { h with poll := p }.Holds (⟨fd, cs, p.kernel fd⟩ :: l) := by
  have hne : ∀ x ∈ l, x.fd ≠ fd := by
    intro x hx he
    exact hh.not_mem (List.mem_map.mpr ⟨x, hx, he⟩)
  refine ⟨hh.files, ?_, ?_, hh.stray⟩
  · intro x hx
    rcases List.mem_cons.mp hx with rfl | hx
    · rfl
    · exact (hp x.fd (hne x hx)).trans (hh.watched x (List.mem_cons_of_mem _ hx))
  · intro j hj
    refine (hp j ?_).trans (hh.others j hj)
    rintro rfl
    exact hj List.mem_cons_self

/-! ## One descriptor -/

theorem socket_holds (hh : h.Holds l) : h.socket.2.Holds (⟨h.socket.1, [], none⟩ :: l) := by
  have hfiles := Slots.holds_take hh.files []
  have hnew : h.socket.1 ∉ l.map Piece.fd := by
    have honce := hfiles.once Nat.cast_injective
    rw [List.map_cons, List.map_map] at honce
    exact (List.nodup_cons.mp honce).1
  refine ⟨hfiles, ?_, ?_, hh.stray⟩
  · intro x hx
    rcases List.mem_cons.mp hx with rfl | hx
    · exact hh.others _ hnew
    · exact hh.watched x hx
  · intro fd hfd
    apply hh.others
    intro hmem
    exact hfd (List.mem_cons_of_mem _ hmem)

theorem did_holds (hh : h.Holds (⟨fd, cs, w⟩ :: l)) (c : Syscall) : (h.did fd c).Holds (⟨fd, cs ++ [c], w⟩ :: l) := by
  obtain ⟨i, rfl, -⟩ := hh.slot
  have hfiles := Slots.holds_change Nat.cast_injective hh.files (· ++ [c])
  refine ⟨hfiles, ?_, hh.others, hh.stray⟩
  intro x hx
  rcases List.mem_cons.mp hx with rfl | hx
  · exact hh.watched ⟨i, cs, w⟩ List.mem_cons_self
  · exact hh.watched x (List.mem_cons_of_mem _ hx)

theorem close_holds (hh : h.Holds (⟨fd, cs, w⟩ :: l)) : (h.close fd).Holds l := by
  have hnew := hh.not_mem
  have hfile : (h.file fd).isSome = true := by rw [hh.file_some]; rfl
  obtain ⟨i, rfl, -⟩ := hh.slot
  have hfiles := Slots.holds_free Nat.cast_injective hh.files
  unfold close
  rw [if_pos hfile]
  refine ⟨hfiles, ?_, ?_, hh.stray⟩
  · intro x hx
    have hne : x.fd ≠ i := by
      intro he
      exact hnew (List.mem_map.mpr ⟨x, hx, he⟩)
    show Function.update h.poll.kernel i none x.fd = x.watch
    rw [Function.update_of_ne hne]
    exact hh.watched x (List.mem_cons_of_mem _ hx)
  · intro fd hfd
    show Function.update h.poll.kernel i none fd = none
    by_cases he : fd = i
    · rw [he, Function.update_self]
    · rw [Function.update_of_ne he]
      apply hh.others
      simpa [he] using hfd

/-! ## Calls one after the other -/

/-- The call succeeds. -/
def Succeeds (k : Answers) (c : Syscall) : Prop := k.calls c = none ∨ c = .connect ∧ k.calls c = some einprogress

instance (k : Answers) (c : Syscall) : Decidable (Succeeds k c) := inferInstanceAs (Decidable (_ ∨ _))

theorem call_cases (h : Host) (fd : Int) (c : Syscall) :
    Succeeds k c ∧ h.call k fd c = (.ok, h.did fd c) ∨ ¬ Succeeds k c ∧ ∃ errno, h.call k fd c = (.sys errno, h) := by
  unfold call Succeeds
  cases hc : k.calls c with
  | none => exact Or.inl ⟨Or.inl rfl, rfl⟩
  | some errno =>
    dsimp only
    by_cases hprogress : c = .connect ∧ errno = einprogress
    · rw [if_pos hprogress]
      exact Or.inl ⟨Or.inr ⟨hprogress.1, congrArg some hprogress.2⟩, rfl⟩
    · rw [if_neg hprogress]
      refine Or.inr ⟨?_, errno, rfl⟩
      rintro (hnone | ⟨hconnect, hsome⟩)
      · cases hnone
      · exact hprogress ⟨hconnect, Option.some.inj hsome⟩

theorem callAll_cases (calls : List Syscall) : ∀ {h : Host} {cs : List Syscall}, h.Holds (⟨fd, cs, w⟩ :: l) →
    (∀ c ∈ calls, Succeeds k c) ∧ (h.callAll k fd calls).1 = .ok ∧
        (h.callAll k fd calls).2.Holds (⟨fd, cs ++ calls, w⟩ :: l) ∨
      ¬ (∀ c ∈ calls, Succeeds k c) ∧ (h.callAll k fd calls).1 ≠ .ok ∧
        ∃ done, (h.callAll k fd calls).2.Holds (⟨fd, cs ++ done, w⟩ :: l) := by
  induction calls with
  | nil =>
    intro h cs hh
    refine Or.inl ⟨by simp, rfl, ?_⟩
    simpa [callAll] using hh
  | cons c calls ih =>
    intro h cs hh
    unfold callAll
    rcases h.call_cases (k := k) fd c with ⟨hc, hcall⟩ | ⟨hc, errno, hcall⟩
    · rw [hcall]
      dsimp only
      rcases ih (did_holds hh c) with ⟨hall, hok, hholds⟩ | ⟨hall, hok, done, hholds⟩
      · refine Or.inl ⟨?_, hok, ?_⟩
        · simpa [hc] using hall
        · simpa using hholds
      · refine Or.inr ⟨?_, hok, c :: done, ?_⟩
        · simpa [hc] using hall
        · simpa using hholds
    · rw [hcall]
      refine Or.inr ⟨?_, by simp, [], ?_⟩
      · intro hall
        exact hc (hall c List.mem_cons_self)
      · simpa using hh

/-- All of them, or the socket is closed again. -/
theorem prepare_cases {s : Int} (calls : List Syscall) (hh : h.Holds (⟨s, [], w⟩ :: l)) :
    (∀ c ∈ calls, Succeeds k c) ∧ (h.prepare k s calls).1 = .ok ∧
        (h.prepare k s calls).2.Holds (⟨s, calls, w⟩ :: l) ∨
      ¬ (∀ c ∈ calls, Succeeds k c) ∧ (h.prepare k s calls).1 ≠ .ok ∧ (h.prepare k s calls).2.Holds l := by
  have hcases := callAll_cases (k := k) calls hh
  unfold prepare
  rcases hcall : h.callAll k s calls with ⟨e, h'⟩
  rw [hcall] at hcases
  dsimp only at hcases
  rcases hcases with ⟨hall, rfl, hholds⟩ | ⟨hall, hok, done, hholds⟩
  · exact Or.inl ⟨hall, rfl, hholds⟩
  · refine Or.inr ⟨hall, ?_⟩
    cases e with
    | ok => exact absurd rfl hok
    | _ => exact ⟨hok, close_holds hholds⟩

/-! ## Events -/

theorem ctl_others (p : Poll) (op : Op) (m : Mask) {j : Int} (hj : j ≠ fd) :
    (p.ctl op fd m).2.kernel j = p.kernel j := by
  unfold Poll.ctl epollCtl
  by_cases hfd : fd < 0
  · rw [if_pos hfd]
  · rw [if_neg hfd]
    cases op <;> cases hk : p.kernel fd <;> simp [Function.update_of_ne hj]

theorem setReadable_others (evt : Event) (p : Poll) (flag : Bool) {j : Int} (hj : j ≠ evt.fd) :
    (evt.setReadable p flag).2.2.kernel j = p.kernel j := by
  unfold Event.setReadable Event.operateNotify
  split
  · rfl
  · dsimp only
    split
    · rfl
    · exact ctl_others p _ _ hj

theorem removeNotify_others (evt : Event) (p : Poll) {j : Int} (hj : j ≠ evt.fd) :
    (evt.removeNotify p).2.2.kernel j = p.kernel j := by
  rcases evt.removeNotify_cases p with ⟨errno, hr, -⟩ | ⟨hr, -⟩
  · rw [hr]
  · rw [hr]
    exact Function.update_of_ne hj _ _

@[simp] theorem removeNotify_fd (evt : Event) (p : Poll) : (evt.removeNotify p).2.1.fd = evt.fd := by
  rcases evt.removeNotify_cases p with ⟨errno, hr, -⟩ | ⟨hr, -⟩
  · rw [hr]
  · rw [hr]

@[simp] theorem setReadable_fd (k : Answers) (h : Host) (evt : Event) (flag : Bool) :
    (h.setReadable k evt flag).2.1.fd = evt.fd := by
  unfold setReadable
  cases k.calls .epollCtl with
  | none => exact Event.setReadable_fd flag
  | some errno =>
    dsimp only
    split <;> rfl

theorem setReadable_holds (hh : h.Holds (⟨evt.fd, cs, w⟩ :: l)) (k : Answers) (flag : Bool) :
    ∃ w', (h.setReadable k evt flag).2.2.Holds (⟨evt.fd, cs, w'⟩ :: l) := by
  unfold setReadable
  cases k.calls .epollCtl with
  | none => exact ⟨_, hh.repoll fun j hj => setReadable_others evt h.poll flag hj⟩
  | some errno =>
    dsimp only
    split
    · exact ⟨w, hh⟩
    · exact ⟨w, hh⟩

/-- A new descriptor is watched for what the event has, if the kernel lets it. -/
theorem attach_cases (k : Answers) (evt : Event) (hh : h.Holds (⟨evt.fd, cs, none⟩ :: l)) :
    (k.calls .epollCtl = none ∨ evt.events = .zero) ∧ (h.attach k evt).1 = .ok ∧ (h.attach k evt).2.Holds
        (⟨evt.fd, cs, if evt.events = .zero then none else some evt.events⟩ :: l) ∨
      ¬ (k.calls .epollCtl = none ∨ evt.events = .zero) ∧ (h.attach k evt).1 ≠ .ok ∧
        (h.attach k evt).2.Holds (⟨evt.fd, cs, none⟩ :: l) := by
  have hfd := hh.nonneg
  have hne : evt.fd ≠ -1 := by omega
  have hwatch : h.poll.kernel evt.fd = none := hh.watched _ List.mem_cons_self
  unfold attach
  by_cases hzero : evt.events = .zero
  · rw [if_pos hzero]
    refine Or.inl ⟨Or.inr hzero, ?_⟩
    cases k.calls .epollCtl with
    | none =>
      have hattach : evt.attach h.poll = (.ok, h.poll) := by simp [Event.attach, hne, hzero]
      rw [hattach]
      exact ⟨rfl, hh⟩
    | some errno =>
      simp only [hne, hzero, if_true, if_false]
      exact ⟨trivial, hh⟩
  · rw [if_neg hzero]
    cases k.calls .epollCtl with
    | none =>
      have hattach : evt.attach h.poll = h.poll.ctl .add evt.fd evt.events := by simp [Event.attach, hne, hzero]
      have hnow : (h.poll.ctl .add evt.fd evt.events).2.kernel evt.fd = some evt.events := by
        rw [Event.ctl_add hfd hwatch]
        exact Function.update_self _ _ _
      have hadd := hh.repoll (p := (h.poll.ctl .add evt.fd evt.events).2) fun j hj => ctl_others h.poll _ _ hj
      rw [hnow] at hadd
      rw [hattach]
      refine Or.inl ⟨Or.inl rfl, ?_, hadd⟩
      rw [Event.ctl_add hfd hwatch]
    | some errno =>
      simp only [hne, hzero, if_false]
      exact Or.inr ⟨by simp, by simp, hh⟩

/-- The descriptor is gone, whatever was watched. -/
theorem closeEvent_holds (hh : h.Holds (⟨evt.fd, cs, w⟩ :: l)) (rst : Bool) :
    (h.closeEvent k evt rst).1.fd = evt.fd ∧ (h.closeEvent k evt rst).2.Holds l := by
  refine ⟨removeNotify_fd evt h.poll, ?_⟩
  have hremoved := hh.repoll fun j hj => removeNotify_others evt h.poll hj
  unfold closeEvent
  dsimp only
  rw [removeNotify_fd]
  cases rst with
  | false => exact close_holds hremoved
  | true =>
    rw [if_pos rfl]
    rcases callAll_cases (k := k) setCloseNoWait hremoved with ⟨-, -, hholds⟩ | ⟨-, -, done, hholds⟩
    · exact close_holds hholds
    · exact close_holds hholds

/-- An event whose descriptor is closed leaves everything as it is. -/
theorem destroy_holds (hh : h.Holds l) (hgone : evt.fd ∉ l.map Piece.fd) : (h.destroy evt).Holds l := by
  unfold destroy
  split
  · exact hh
  · have hwatch := hh.others _ hgone
    rcases evt.removeNotify_cases h.poll with ⟨errno, hr, -⟩ | ⟨-, -, hsome⟩
    · rw [hr]
      exact hh
    · exact absurd hwatch hsome

/-- What is watched goes with an event that is deleted, its descriptor does not. -/
theorem destroy_open (evt : Event) (hh : h.Holds (⟨evt.fd, cs, w⟩ :: l)) :
    (h.destroy evt).Holds (⟨evt.fd, cs, none⟩ :: l) := by
  have hfd := hh.nonneg
  have hne : evt.fd ≠ -1 := by omega
  have hremoved := hh.repoll fun j hj => removeNotify_others evt h.poll hj
  have hnone : (evt.removeNotify h.poll).2.2.kernel evt.fd = none := by
    rcases evt.removeNotify_cases h.poll with ⟨errno, hr, hgone⟩ | ⟨hr, -⟩
    · rw [hr]
      rcases hgone with hneg | hnone
      · omega
      · exact hnone
    · rw [hr]
      exact Function.update_self _ _ _
  rw [hnone] at hremoved
  unfold destroy
  rw [if_neg hne]
  exact hremoved

/-- Reading is enabled on an event that was not watched. -/
theorem setReadable_new (k : Answers) (evt : Event) (hh : h.Holds (⟨evt.fd, cs, none⟩ :: l))
    (hzero : evt.events = .zero) :
    (k.calls .epollCtl = none ∧ (h.setReadable k evt true).1 = .ok ∧
        (h.setReadable k evt true).2.2.Holds (⟨evt.fd, cs, some ⟨true, false⟩⟩ :: l)) ∨
      k.calls .epollCtl ≠ none ∧ (h.setReadable k evt true).1 ≠ .ok ∧
        (h.setReadable k evt true).2.2.Holds (⟨evt.fd, cs, none⟩ :: l) := by
  have hfd := hh.nonneg
  have hne : evt.fd ≠ -1 := by omega
  have hwatch : h.poll.kernel evt.fd = none := hh.watched _ List.mem_cons_self
  have hhas : evt.events.has .epollIn ≠ true := by
    rw [hzero]
    decide
  have hmask : evt.events.put true .epollIn = ⟨true, false⟩ := by rw [hzero]; rfl
  unfold setReadable
  cases k.calls .epollCtl with
  | none =>
    have hset : evt.setReadable h.poll true = ((h.poll.ctl .add evt.fd ⟨true, false⟩).1,
        { evt with events := ⟨true, false⟩ }, (h.poll.ctl .add evt.fd ⟨true, false⟩).2) := by
      unfold Event.setReadable Event.operateNotify
      rw [if_neg hhas]
      dsimp only
      rw [if_neg hne, hmask, hzero]
      rfl
    have hadd := hh.repoll (p := (h.poll.ctl .add evt.fd ⟨true, false⟩).2) fun j hj => ctl_others h.poll _ _ hj
    have hnow : (h.poll.ctl .add evt.fd ⟨true, false⟩).2.kernel evt.fd = some ⟨true, false⟩ := by
      rw [Event.ctl_add hfd hwatch]
      exact Function.update_self _ _ _
    rw [hnow] at hadd
    rw [hset]
    refine Or.inl ⟨rfl, ?_, hadd⟩
    rw [Event.ctl_add hfd hwatch]
  | some errno =>
    simp only [hhas, hne, if_false]
    exact Or.inr ⟨by simp, by simp, hh⟩

/-- The address is found, the socket made, and every call on it succeeds. -/
def Ready (k : Answers) (calls : List Syscall) : Prop :=
  k.resolve = .ok ∧ k.opens = none ∧ ∀ c ∈ calls, Succeeds k c

instance (k : Answers) (calls : List Syscall) : Decidable (Ready k calls) := inferInstanceAs (Decidable (_ ∧ _))

/-- A socket that is set up, and watched if the kernel lets it, or nothing new. -/
theorem establish_cases (hh : h.Holds l) (evt : Event) (events : Mask) (calls : List Syscall) :
    (¬ Ready k calls ∧ (h.establish k evt events calls).1 ≠ .ok ∧ (h.establish k evt events calls).2.1 = evt ∧
        (h.establish k evt events calls).2.2.Holds l) ∨
      Ready k calls ∧ ∃ s : Int, (h.establish k evt events calls).2.1 = { evt with fd := s, events := events } ∧
        ((k.calls .epollCtl = none ∨ events = .zero) ∧ (h.establish k evt events calls).1 = .ok ∧
            (h.establish k evt events calls).2.2.Holds
              (⟨s, calls, if events = .zero then none else some events⟩ :: l) ∨
          ¬ (k.calls .epollCtl = none ∨ events = .zero) ∧ (h.establish k evt events calls).1 ≠ .ok ∧
            (h.establish k evt events calls).2.2.Holds (⟨s, calls, none⟩ :: l)) := by
  unfold establish
  by_cases hresolve : k.resolve ≠ .ok
  · rw [if_pos hresolve]
    exact Or.inl ⟨fun hready => hresolve hready.1, hresolve, rfl, hh⟩
  · rw [if_neg hresolve]
    cases hopens : k.opens with
    | some errno =>
      refine Or.inl ⟨fun hready => ?_, by simp, rfl, hh⟩
      have hnone := hready.2.1
      rw [hopens] at hnone
      cases hnone
    | none =>
      dsimp only
      have hcases := prepare_cases (k := k) calls (socket_holds hh)
      rcases hprepare : h.socket.2.prepare k h.socket.1 calls with ⟨e, h'⟩
      rw [hprepare] at hcases
      dsimp only at hcases
      rcases hcases with ⟨hall, rfl, hholds⟩ | ⟨hall, hok, hholds⟩
      · have hready : Ready k calls := ⟨Classical.not_not.mp hresolve, hopens, hall⟩
        exact Or.inr ⟨hready, h.socket.1, rfl, attach_cases k { evt with fd := h.socket.1, events := events } hholds⟩
      · refine Or.inl ⟨fun hready => hall hready.2.2, ?_⟩
        cases e with
        | ok => exact absurd rfl hok
        | _ => exact ⟨hok, rfl, hholds⟩

/-- `Listen`: what is left open is the event's. -/
theorem listen_cases (hh : h.Holds l) (k : Answers) (opt : NetIoOptions) (evt : Event) :
    ((Ready k opt.listenCalls ∧ k.calls .epollCtl = none) ∧ (h.listen k opt evt).1 = .ok ∧
        (h.listen k opt evt).2.2.Holds (⟨(h.listen k opt evt).2.1.fd, opt.listenCalls, some ⟨true, false⟩⟩ :: l)) ∨
      ¬ (Ready k opt.listenCalls ∧ k.calls .epollCtl = none) ∧ (h.listen k opt evt).1 ≠ .ok ∧
        ∃ own : List Piece, (h.listen k opt evt).2.2.Holds (own ++ l) ∧
          ∀ x ∈ own, x.fd = (h.listen k opt evt).2.1.fd := by
  unfold listen
  rcases establish_cases (k := k) hh evt ⟨true, false⟩ opt.listenCalls with
    ⟨hnot, hfailed, -, hnone⟩ | ⟨hready, s, hevt, hnew⟩
  · exact Or.inr ⟨fun h => hnot h.1, hfailed, [], hnone, by simp⟩
  · rw [hevt]
    rcases hnew with ⟨hadd | hzero, hok, hopen⟩ | ⟨hadd, hfailed, hopen⟩
    · exact Or.inl ⟨⟨hready, hadd⟩, hok, hopen⟩
    · cases hzero
    · exact Or.inr ⟨fun h => hadd (Or.inl h.2), hfailed, [_], hopen, by simp⟩

/-- `Connect` of an event that is watched for nothing yet. -/
theorem connect_cases (hh : h.Holds l) (k : Answers) (opt : NetIoOptions) (evt : Event) (hzero : evt.events = .zero) :
    (Ready k opt.connectCalls ∧ (h.connect k opt evt).1 = .ok ∧ ∃ s, (h.connect k opt evt).2.1 = { evt with fd := s } ∧
        (h.connect k opt evt).2.2.Holds (⟨s, opt.connectCalls, none⟩ :: l)) ∨
      ¬ Ready k opt.connectCalls ∧ (h.connect k opt evt).1 ≠ .ok ∧ (h.connect k opt evt).2.2.Holds l := by
  unfold connect
  rcases establish_cases (k := k) hh evt evt.events opt.connectCalls with
    ⟨hnot, hfailed, -, hnone⟩ | ⟨hready, s, hevt, hnew⟩
  · exact Or.inr ⟨hnot, hfailed, hnone⟩
  · rcases hnew with ⟨-, hok, hopen⟩ | ⟨hsome, -, -⟩
    · rw [if_pos hzero] at hopen
      exact Or.inl ⟨hready, hok, s, hevt, hopen⟩
    · exact absurd (Or.inr hzero) hsome

/-- An event that is connected again and then deleted: what it got stays open. -/
theorem connect_destroy (hh : h.Holds l) (hgone : evt.fd ∉ l.map Piece.fd) (k : Answers) (opt : NetIoOptions) :
    let r := h.connect k opt evt
    ¬ Ready k opt.connectCalls ∧ r.2.2.file r.2.1.fd = none ∧ (r.2.2.destroy r.2.1).Holds l ∨
      Ready k opt.connectCalls ∧ (r.2.2.file r.2.1.fd).isSome = true ∧
        (r.2.2.destroy r.2.1).Holds (⟨r.2.1.fd, opt.connectCalls, none⟩ :: l) := by
  dsimp only
  unfold connect
  rcases establish_cases (k := k) hh evt evt.events opt.connectCalls with
    ⟨hnot, -, hevt, hnone⟩ | ⟨hready, s, hevt, hnew⟩
  · rw [hevt]
    exact Or.inl ⟨hnot, hnone.file_none hgone, destroy_holds hnone hgone⟩
  · obtain ⟨w, hopen⟩ : ∃ w, (h.establish k evt evt.events opt.connectCalls).2.2.Holds
        (⟨s, opt.connectCalls, w⟩ :: l) := by
      rcases hnew with ⟨-, -, hopen⟩ | ⟨-, -, hopen⟩
      · exact ⟨_, hopen⟩
      · exact ⟨_, hopen⟩
    rw [hevt]
    refine Or.inr ⟨hready, ?_, destroy_open { evt with fd := s, events := evt.events } hopen⟩
    rw [hopen.file_some]
    rfl

/-! ## Whatever is watched -/

/-- The pieces of `l`, and beside them descriptors with these calls, whatever they are watched for. -/
def Owned (h : Host) (l : List Piece) (m : List (Int × List Syscall)) : Prop :=
  ∃ pieces : List Piece, (pieces.map fun x => (x.fd, x.calls)).Perm m ∧ h.Holds (pieces ++ l)

variable {m m' : List (Int × List Syscall)}

theorem Owned.perm (ho : h.Owned l m) (hm : m.Perm m') : h.Owned l m' := by
  obtain ⟨pieces, hp, hh⟩ := ho
  exact ⟨pieces, hp.trans hm, hh⟩

/-- The frame: what holds the same is owned the same, and what is new is owned with it. -/
theorem Owned.frame (ho : h.Owned l m) : ∃ L, h.Holds L ∧ (∀ h' : Host, h'.Holds L → h'.Owned l m) ∧
    (∀ (h' : Host) fd cs w, h'.Holds (⟨fd, cs, w⟩ :: L) → h'.Owned l ((fd, cs) :: m)) ∧
    ∀ (h' : Host) x, h'.Holds (x :: L) → h'.Owned (x :: l) m := by
  obtain ⟨pieces, hp, hh⟩ := ho
  refine ⟨pieces ++ l, hh, ?_, ?_, ?_⟩
  · intro h' hh'
    exact ⟨pieces, hp, hh'⟩
  · intro h' fd cs w hh'
    exact ⟨⟨fd, cs, w⟩ :: pieces, hp.cons _, hh'⟩
  · intro h' x hh'
    exact ⟨pieces, hp, hh'.perm List.perm_middle.symm⟩

/-- One of them, and the frame without it. -/
theorem Owned.focus (ho : h.Owned l ((fd, cs) :: m)) : ∃ w L, h.Holds (⟨fd, cs, w⟩ :: L) ∧
    (∀ h' : Host, h'.Holds L → h'.Owned l m) ∧
    (∀ (h' : Host) w, h'.Holds (⟨fd, cs, w⟩ :: L) → h'.Owned l ((fd, cs) :: m)) ∧
    ∀ (h' : Host) x, h'.Holds (x :: L) → h'.Owned (x :: l) m := by
  obtain ⟨pieces, hp, hh⟩ := ho
  obtain ⟨⟨fd', cs', w⟩, hx, he⟩ := List.mem_map.mp (hp.symm.subset List.mem_cons_self)
  obtain ⟨rfl, rfl⟩ := Prod.mk.inj he
  obtain ⟨before, after, rfl⟩ := List.append_of_mem hx
  have hpieces : (before ++ ⟨fd', cs', w⟩ :: after).Perm (⟨fd', cs', w⟩ :: (before ++ after)) := List.perm_middle
  have hrest : ((before ++ after).map fun x => (x.fd, x.calls)).Perm m :=
    ((hpieces.map _).symm.trans hp).cons_inv
  refine ⟨w, before ++ after ++ l, hh.perm (hpieces.append_right l), ?_, ?_, ?_⟩
  · intro h' hh'
    exact ⟨before ++ after, hrest, hh'⟩
  · intro h' w' hh'
    exact ⟨⟨fd', cs', w'⟩ :: (before ++ after), hrest.cons _, hh'⟩
  · intro h' x hh'
    exact ⟨before ++ after, hrest, hh'.perm List.perm_middle.symm⟩

end Host

end RedisProxy.Net
