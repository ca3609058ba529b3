/-
  RedisProxy.Server.Auth — the AUTH that `Init` sends and the gate behind it
  (`cmd::Auth`, `Init`, `IsAcceptable`, `onAuthCallback`, `OnServerClosed` of upstream.cpp).

  The AUTH command is a reader of the queue like any session; what its `OnServerWrite`
  does (`auth_` from the first byte of the reply) comes after the read here, whose loop
  does not look at `auth_`. The log has every command put into the send buffer and every
  `OnServerWrite` call, with the connection instance they belong to (`conn`, the closes
  so far).

  `Init` is the only place that sends AUTH, and nothing but a reply to it sets `auth_`:
  after a close `auth_` is what it was.

  Proved: `authenticated_iff`. On every instance the first command is AUTH, and no client
  command comes before a `+` reply to it, if and only if no client command is accepted
  after a close.
-/

import RedisProxy.Server.Reconnect

namespace RedisProxy.Server

open Lib Lib.Decimal Wire Net

/-- The readers of the queue: `authCmd_` and the sessions. -/
inductive Reader (R : Type) where
  | auth
  | client (reader : R)
  deriving DecidableEq, Repr

/-- `Auth` keeps `UpstreamReader::Identity`. -/
def Reader.identity {R : Type} (identity : R → Nat) : Reader R → Nat
  | .auth => 0
  | .client reader => identity reader

/-- `auth` and the password. -/
def authCommand (password : Bytes) : Cmd := [[97, 117, 116, 104], password]

inductive Mark (R : Type) where
  | put (conn : Nat) (cmd : Cmd) (reader : Reader R)
  | replied (conn : Nat) (reader : Reader R) (resp : Bytes)
  deriving DecidableEq, Repr

structure Gate (R : Type) where
  upstream : Upstream (Reader R)
  /-- `authCmd_` is set. -/
  authCmd : Bool
  conn : Nat
  log : List (Mark R)

namespace Gate

variable {R : Type} (identity : R → Nat)

/-- What a push came to. -/
def put (g : Gate R) (cmd : Cmd) (reader : Reader R) (res : Error × Upstream (Reader R)) : Error × Gate R :=
  (res.1, { g with upstream := res.2, log := if res.1 = .ok then g.log ++ [.put g.conn cmd reader] else g.log })

/-- `Init`; `n` is `ConnSendBufferCount`. -/
def init (n : Nat) (h : 0 < n) (password : Bytes) : Error × Gate R :=
  let u : Upstream (Reader R) := { Upstream.start n h with auth := false }
  if password = [] then (.ok, ⟨{ u with auth := true }, false, 0, []⟩)
  else put ⟨u, true, 0, []⟩ (authCommand password) .auth
    (u.pushRequest (Reader.identity identity) (authCommand password) .auth)

/-- `OnServerWrite`: a session's, or `onAuthCallback`. -/
def onServerWrite (g : Gate R) : Reader R × Bytes → Gate R
  | (.auth, resp) =>
    { g with upstream := { g.upstream with auth := resp.head? == some 43 }, authCmd := false,
             log := g.log ++ [.replied g.conn .auth resp] }
  | (.client reader, resp) => { g with log := g.log ++ [.replied g.conn (.client reader) resp] }

def onReadable (g : Gate R) (chunk : Bytes × Bytes) : Gate R :=
  let r := Relay.onReadable (Reader.identity identity) chunk ⟨g.upstream, []⟩
  r.writes.foldl onServerWrite { g with upstream := r.upstream }

inductive Event (R : Type) where
  | push (cmd : Cmd) (reader : R)
  | write (w : WriteResult)
  | read (chunk : Bytes × Bytes)
  | close

def step (g : Gate R) : Event R → Gate R
  | .push cmd reader =>
    (g.put cmd (.client reader) (g.upstream.poolPushRequest (Reader.identity identity) cmd (.client reader))).2
  | .write w => { g with upstream := g.upstream.onWritable w }
  | .read chunk => g.onReadable identity chunk
  | .close => { g with upstream := g.upstream.onServerClosed, conn := g.conn + 1 }

def run (g : Gate R) (events : List (Event R)) : Gate R := events.foldl (step identity) g

/-! ## AUTH first -/

/-- The first command of an instance is AUTH with the password, and a client's command comes
    after a reply to AUTH that starts with `+`; `before` is the log so far. -/
structure May (password : Bytes) (before : List (Mark R)) (conn : Nat) (cmd : Cmd) (reader : Reader R) : Prop where
  first : (∀ c r, .put conn c r ∉ before) → reader = .auth ∧ cmd = authCommand password
  gate : reader ≠ .auth → ∃ resp, .replied conn .auth (43 :: resp) ∈ before

def Gated (password : Bytes) (log : List (Mark R)) : Prop :=
  ∀ before conn cmd reader, before ++ [.put conn cmd reader] <+: log → May password before conn cmd reader

/-- The push of a client would be accepted. -/
def Accepts (g : Gate R) : Prop :=
  g.upstream.isAcceptable = true ∧ g.upstream.cmdQueue.held.length + 1 < g.upstream.cmdQueue.holder.length

/-- A client's push is accepted on the first instance only. -/
def Kept (g : Gate R) : Event R → Prop
  | .push _ _ => g.conn = 0 ∨ ¬ g.Accepts
  | _ => True

variable {identity} {password : Bytes} {log : List (Mark R)}

/-- A log that grows by a command. -/
theorem gated_put (conn : Nat) (cmd : Cmd) (reader : Reader R) :
    Gated password (log ++ [.put conn cmd reader]) ↔ Gated password log ∧ May password log conn cmd reader := by
  constructor
  · intro h
    refine ⟨fun before conn' cmd' reader' hp => ?_, h log conn cmd reader (List.prefix_refl _)⟩
    exact h before conn' cmd' reader' (hp.trans (List.prefix_append _ _))
  · rintro ⟨h, hmay⟩ before conn' cmd' reader' hp
    rcases List.prefix_concat_iff.mp hp with heq | hp
    · obtain ⟨rfl, hmark⟩ := List.append_inj' heq rfl
      obtain ⟨rfl, rfl, rfl⟩ := Mark.put.inj (List.singleton_inj.mp hmark)
      exact hmay
    · exact h before conn' cmd' reader' hp

/-- A log that grows by a reply. -/
theorem gated_replied (conn : Nat) (reader : Reader R) (resp : Bytes) :
    Gated password (log ++ [.replied conn reader resp]) ↔ Gated password log := by
  constructor
  · intro h before conn' cmd' reader' hp
    exact h before conn' cmd' reader' (hp.trans (List.prefix_append _ _))
  · intro h before conn' cmd' reader' hp
    rcases List.prefix_concat_iff.mp hp with heq | hp
    · have hmark := (List.append_inj' heq rfl).2
      cases List.singleton_inj.mp hmark
    · exact h before conn' cmd' reader' hp

/-! ## One step -/

variable (identity) in
theorem poolPushRequest_cases (g : Gate R) (cmd : Cmd) (reader : Reader R) :
    (¬ g.Accepts ∧ g.upstream.poolPushRequest (Reader.identity identity) cmd reader = (.tryAgain, g.upstream)) ∨
      (g.Accepts ∧ ∃ u, g.upstream.poolPushRequest (Reader.identity identity) cmd reader = (.ok, u) ∧
        u.auth = g.upstream.auth ∧
        u.cmdQueue.held = g.upstream.cmdQueue.held ++ [⟨Reader.identity identity reader, some reader⟩]) := by
  unfold Accepts Upstream.poolPushRequest
  by_cases ha : g.upstream.isAcceptable = true
  · have hc : ¬ g.upstream.serverConn.connected = false := by
      intro hc
      simp [Upstream.isAcceptable, hc] at ha
    rw [if_pos ha, Upstream.pushRequest, if_neg hc]
    rcases g.upstream.cmdQueue.push_held ⟨Reader.identity identity reader, some reader⟩ with
      ⟨hfull, he⟩ | ⟨hroom, q, hq, hheld, -⟩
    · rw [he]
      exact Or.inl ⟨fun hn => by omega, rfl⟩
    · rw [hq]
      exact Or.inr ⟨⟨ha, hroom⟩, _, rfl, rfl, hheld⟩
  · rw [if_neg ha]
    exact Or.inl ⟨fun hn => ha hn.1, rfl⟩

/-- What the log has to do with the state, always. -/
structure Facts (password : Bytes) (g : Gate R) : Prop where
  sent : .put 0 (authCommand password) .auth ∈ g.log
  once : ∀ conn cmd, .put conn cmd .auth ∈ g.log → conn = 0
  authed : g.upstream.auth = true → ∃ conn resp, conn ≤ g.conn ∧ .replied conn .auth (43 :: resp) ∈ g.log

/-- `K` says whether the run has kept to its condition so far. -/
structure Tracks (password : Bytes) (K : Prop) (g : Gate R) : Prop where
  facts : Facts password g
  gated : K → Gated password g.log ∧ ∀ conn cmd reader, .put conn cmd reader ∈ g.log → conn = 0
  kept : Gated password g.log → K

theorem tracks_upstream {K : Prop} {g : Gate R} (h : Tracks password K g) {u : Upstream (Reader R)}
    (hu : u.auth = g.upstream.auth) : Tracks password K { g with upstream := u } := by
  refine ⟨⟨h.facts.sent, h.facts.once, ?_⟩, h.gated, h.kept⟩
  intro ha
  exact h.facts.authed (hu ▸ ha)

theorem tracks_onServerWrite {K : Prop} {g : Gate R} (h : Tracks password K g) (call : Reader R × Bytes) :
    Tracks password K (g.onServerWrite call) := by
  obtain ⟨reader, resp⟩ := call
  have hput : ∀ {conn cmd r}, .put conn cmd r ∈ (g.onServerWrite (reader, resp)).log → .put conn cmd r ∈ g.log := by
    intro conn cmd r hm
    cases reader with
    | auth => simpa [onServerWrite] using hm
    | client reader => simpa [onServerWrite] using hm
  have hgated : Gated password (g.onServerWrite (reader, resp)).log ↔ Gated password g.log := by
    cases reader with
    | auth => exact gated_replied _ _ _
    | client reader => exact gated_replied _ _ _
  refine ⟨⟨?_, fun conn cmd hm => h.facts.once conn cmd (hput hm), ?_⟩, ?_, fun hg => h.kept (hgated.mp hg)⟩
  · cases reader with
    | auth => exact List.mem_append_left _ h.facts.sent
    | client reader => exact List.mem_append_left _ h.facts.sent
  · intro ha
    cases reader with
    | auth =>
      -- `auth_` is what this reply says
      have hhead : resp.head? = some 43 := by simpa [onServerWrite] using ha
      obtain ⟨rest, rfl⟩ : ∃ rest, resp = 43 :: rest := by
        cases resp with
        | nil => cases hhead
        | cons b rest => exact ⟨rest, by rw [Option.some.inj hhead]⟩
      exact ⟨g.conn, rest, Nat.le_refl _, List.mem_append_right _ (List.mem_singleton.mpr rfl)⟩
    | client reader =>
      obtain ⟨conn, rest, hle, hm⟩ := h.facts.authed ha
      exact ⟨conn, rest, hle, List.mem_append_left _ hm⟩
  · intro hk
    obtain ⟨hg, hzero⟩ := h.gated hk
    exact ⟨hgated.mpr hg, fun conn cmd r hm => hzero conn cmd r (hput hm)⟩

/-- A read does not touch `auth_` but through the calls it makes. -/
theorem onReadable_auth (chunk : Bytes × Bytes) (s : Relay (Reader R)) :
    (Relay.onReadable (Reader.identity identity) chunk s).upstream.auth = s.upstream.auth := by
  have hround : Relay.Round (Reader.identity identity) chunk.2 (fun t => t.upstream.auth = s.upstream.auth)
      (fun t => t.upstream.auth = s.upstream.auth) :=
    ⟨fun _ h _ => h, fun _ h _ _ => h, fun _ h _ _ _ => h, fun _ _ _ h _ _ _ => h⟩
  exact Relay.onServerRead_rule hround rfl

theorem tracks_onReadable {K : Prop} {g : Gate R} (h : Tracks password K g) (chunk : Bytes × Bytes) :
    Tracks password K (g.onReadable identity chunk) := by
  have hcalls : ∀ (calls : List (Reader R × Bytes)) (g : Gate R), Tracks password K g →
      Tracks password K (calls.foldl onServerWrite g) := by
    intro calls
    induction calls with
    | nil => intro g h; exact h
    | cons call calls ih => intro g h; exact ih _ (tracks_onServerWrite h call)
  exact hcalls _ _ (tracks_upstream h (onReadable_auth chunk _))

theorem tracks_push {K : Prop} {g : Gate R} (h : Tracks password K g) (cmd : Cmd) (reader : R) :
    Tracks password (K ∧ g.Kept (.push cmd reader)) (g.step identity (.push cmd reader)) := by
  rw [step]
  rcases g.poolPushRequest_cases identity cmd (.client reader) with ⟨hno, hres⟩ | ⟨hyes, u, hres, -⟩
  · -- refused: the condition is met and nothing changes
    have hiff : (K ∧ g.Kept (.push cmd reader)) ↔ K := and_iff_left (Or.inr hno)
    rw [hres, hiff]
    exact h
  · rw [hres]
    have ha : g.upstream.auth = true := by
      have := hyes.1
      simp only [Upstream.isAcceptable, Bool.and_eq_true] at this
      exact this.2
    have hlog : (g.put cmd (.client reader) (.ok, u)).2.log = g.log ++ [.put g.conn cmd (.client reader)] := rfl
    have hput : ∀ {conn c r}, .put conn c r ∈ (g.put cmd (.client reader) (.ok, u)).2.log →
        .put conn c r ∈ g.log ∨ conn = g.conn ∧ r = .client reader := by
      intro conn c r hm
      rw [hlog, List.mem_append, List.mem_singleton] at hm
      rcases hm with hm | hm
      · exact Or.inl hm
      · obtain ⟨rfl, -, rfl⟩ := Mark.put.inj hm
        exact Or.inr ⟨rfl, rfl⟩
    refine ⟨⟨List.mem_append_left _ h.facts.sent, ?_, ?_⟩, ?_, ?_⟩
    · intro conn c hm
      rcases hput hm with hm | ⟨-, hr⟩
      · exact h.facts.once conn c hm
      · cases hr
    · intro _
      obtain ⟨conn, resp, hle, hm⟩ := h.facts.authed ha
      exact ⟨conn, resp, hle, List.mem_append_left _ hm⟩
    · rintro ⟨hk, h0 | hno⟩
      · obtain ⟨hg, hzero⟩ := h.gated hk
        refine ⟨?_, ?_⟩
        · rw [hlog, gated_put]
          refine ⟨hg, fun hnone => ?_, fun _ => ?_⟩
          · rw [h0] at hnone
            exact absurd h.facts.sent (hnone _ _)
          · obtain ⟨conn, resp, hle, hm⟩ := h.facts.authed ha
            obtain rfl : conn = g.conn := by omega
            exact ⟨resp, hm⟩
        · intro conn c r hm
          rcases hput hm with hm | ⟨hc, -⟩
          · exact hzero conn c r hm
          · exact hc.trans h0
      · exact absurd hyes hno
    · intro hg
      rw [hlog, gated_put] at hg
      obtain ⟨hold, hmay⟩ := hg
      have hk := h.kept hold
      refine ⟨hk, ?_⟩
      by_contra hnot
      have hne : g.conn ≠ 0 := fun h0 => hnot (Or.inl h0)
      -- the first command of a later instance, and not AUTH
      have hfirst := hmay.first fun c r hm => hne ((h.gated hk).2 _ c r hm)
      cases hfirst.1

theorem tracks_step {K : Prop} {g : Gate R} (h : Tracks password K g) (e : Event R) :
    Tracks password (K ∧ g.Kept e) (g.step identity e) := by
  cases e with
  | push cmd reader => exact tracks_push h cmd reader
  | write w =>
    rw [show (K ∧ g.Kept (.write w)) ↔ K from and_iff_left trivial]
    exact tracks_upstream h rfl
  | read chunk =>
    rw [show (K ∧ g.Kept (.read chunk)) ↔ K from and_iff_left trivial]
    exact tracks_onReadable h chunk
  | close =>
    rw [show (K ∧ g.Kept .close) ↔ K from and_iff_left trivial]
    refine ⟨⟨h.facts.sent, h.facts.once, ?_⟩, h.gated, h.kept⟩
    intro ha
    obtain ⟨conn, resp, hle, hm⟩ := h.facts.authed ha
    exact ⟨conn, resp, Nat.le_succ_of_le hle, hm⟩

/-! ## Over a run -/

/-- `Init` puts AUTH into the queue, or nothing. -/
theorem init_held (n : Nat) (h : 0 < n) (password : Bytes) {pair : ReaderPair (Reader R)}
    (hp : pair ∈ (init identity n h password).2.upstream.cmdQueue.held) : pair.reader = some .auth := by
  have hnew : (Recycle.create n h : Recycle (ReaderPair (Reader R))).held = [] := Recycle.held_create n h
  unfold init at hp
  dsimp only at hp
  split at hp
  · have hp : pair ∈ (Recycle.create n h : Recycle (ReaderPair (Reader R))).held := hp
    rw [hnew] at hp
    cases hp
  · have hp : pair ∈ (Upstream.pushRequest (Reader.identity identity) { Upstream.start n h with auth := false }
      (authCommand password) .auth).2.cmdQueue.held := hp
    rcases Upstream.pushRequest_cases (Reader.identity identity) { Upstream.start n h with auth := false }
      (authCommand password) .auth with ⟨hres, -⟩ | ⟨q, hres, -, hheld⟩
    · rw [hres] at hp
      have hp : pair ∈ (Recycle.create n h : Recycle (ReaderPair (Reader R))).held := hp
      rw [hnew] at hp
      cases hp
    · rw [hres] at hp
      have hp : pair ∈ q.held := hp
      rw [hheld] at hp
      have hp : pair ∈ (Recycle.create n h : Recycle (ReaderPair (Reader R))).held ++ _ := hp
      rw [hnew, List.nil_append, List.mem_singleton] at hp
      rw [hp]

theorem init_tracks {n : Nat} (hn : 1 < n) (hp : password ≠ []) :
    (init identity n (Nat.zero_lt_of_lt hn) password).1 = .ok ∧
      Tracks password True (init identity n (Nat.zero_lt_of_lt hn) password).2 := by
  obtain ⟨g, hg, hlog, hauth⟩ : ∃ g, init identity n (Nat.zero_lt_of_lt hn) password = (.ok, g) ∧
      g.log = [.put 0 (authCommand password) .auth] ∧ g.upstream.auth = false := by
    rw [init, if_neg hp, Upstream.pushRequest, if_neg (by simp [Upstream.start, Connection.opened])]
    rcases (Recycle.create n (Nat.zero_lt_of_lt hn)).push_held
      (⟨Reader.identity identity .auth, some .auth⟩ : ReaderPair (Reader R)) with ⟨hfull, -⟩ | ⟨-, q, hq, -⟩
    · rw [Recycle.held_create, Recycle.create, List.length_replicate, List.length_nil] at hfull
      omega
    · simp only [Upstream.start, hq]
      exact ⟨_, rfl, rfl, rfl⟩
  rw [hg]
  have hput : ∀ {conn cmd reader}, .put conn cmd reader ∈ g.log →
      conn = 0 ∧ cmd = authCommand password ∧ reader = .auth := by
    intro conn cmd reader hm
    rw [hlog, List.mem_singleton] at hm
    exact Mark.put.inj hm
  refine ⟨rfl, ⟨by rw [hlog]; exact List.mem_singleton.mpr rfl, fun conn cmd hm => (hput hm).1, ?_⟩,
    fun _ => ⟨?_, fun conn cmd reader hm => (hput hm).1⟩, fun _ => trivial⟩
  · intro ha
    rw [hauth] at ha
    exact absurd ha Bool.false_ne_true
  · intro before conn cmd reader hpre
    obtain ⟨-, hcmd, hreader⟩ := hput (hpre.subset (List.mem_append_right _ (List.mem_singleton.mpr rfl)))
    exact ⟨fun _ => ⟨hreader, hcmd⟩, fun hne => absurd hreader hne⟩

/-- AUTH is the first command of every instance, and a client's command comes after a `+`
    reply to it there, if and only if no client's push is accepted after a close. -/
theorem authenticated_iff {n : Nat} (hn : 1 < n) (hp : password ≠ []) (events : List (Event R)) :
    Gated password ((init identity n (Nat.zero_lt_of_lt hn) password).2.run identity events).log ↔
      Runs.Each (step identity) Kept (init identity n (Nat.zero_lt_of_lt hn) password).2 events := by
  have hstep : ∀ K g e, Tracks password K g → Tracks password (K ∧ g.Kept e) (step identity g e) :=
    fun _ _ e h => tracks_step h e
  have hinit : Tracks password True (init identity n (Nat.zero_lt_of_lt hn) password).2 := (init_tracks hn hp).2
  have htracks := Runs.each_tracks hstep events True _ hinit
  rw [true_and] at htracks
  exact ⟨htracks.kept, fun he => (htracks.gated he).1⟩

/-- `s3cret` -/
def password6 : Bytes := [115, 51, 99, 114, 101, 116]

/-- AUTH is answered with `+OK`, the server closes, and `PING` is pushed. -/
def reconnectedEvents : List (Event Nat) :=
  [.write (.wrote 26), .read ([43, 79, 75, 13, 10], []), .close, .push [[80, 73, 78, 71]] 1]

/-- The new instance gets `PING` and never an AUTH. -/
theorem reconnected_unauthenticated :
    ¬ Gated password6 ((init id 4 (by decide) password6).2.run id reconnectedEvents).log := by
  intro h
  have hlog : ((init id 4 (by decide) password6).2.run id reconnectedEvents).log =
      [.put 0 (authCommand password6) .auth, .replied 0 .auth [43, 79, 75, 13, 10]] ++
        [.put 1 [[80, 73, 78, 71]] (.client 1)] := by decide
  rw [hlog, gated_put] at h
  have hmay := h.2
  have hfirst := hmay.first (by intro c r hm; simp at hm)
  cases hfirst.1

/-- The refusal of a wrong password, and a push. -/
def refusedEvents : List (Event Nat) :=
  [.write (.wrote 26), .read ([45, 69, 82, 82, 13, 10], []), .close, .push [[80, 73, 78, 71]] 1]

theorem refused_gated :
    1 < 4 ∧ password6 ≠ [] ∧ Gated password6 ((init id 4 (by decide) password6).2.run id refusedEvents).log := by
  refine ⟨by decide, by decide, (authenticated_iff (by decide) (by decide) refusedEvents).mpr ?_⟩
  refine ⟨trivial, trivial, trivial, Or.inr ?_, trivial⟩
  rintro ⟨hacceptable, -⟩
  exact absurd hacceptable (by decide)

end Gate

end RedisProxy.Server
