/-
  RedisProxy.System.Service — the proxy goes unnoticed.

  A state of `System.Network` stands for one of `System.Direct`, where the clients ask the
  server themselves: the log is what the server has executed, with the replies it made and
  the clients they are for. Only a client that comes, a command that is sent and a command
  that is executed are steps there; what the proxy does in between is none.

  Proved, over every calm run of any clients and any server with steady replies:
  - `served`: it is a run without the proxy, and each client has received the beginning of
    what it would have been answered there.
  - `served_whole`: where no byte is on its way, each client that is still connected has
    been answered every command, and has received every answer.
-/

import RedisProxy.Server.Reconnect
import RedisProxy.System.Delivery

namespace RedisProxy.System.Network

open Lib Lib.Decimal Lib.Pieces Lib.Shares Lib.Simulation Wire Net Client Server Proxy

variable {σ : Type}

/-- The state without the proxy. -/
def direct (n : Network σ) : Direct σ where
  server := n.server
  asked := n.clients.map (·.sent)
  log := ((n.order.take n.replies.length).zip n.replies).map fun a => ((a.1.1, a.2), a.1.2)

/-- What an event is without the proxy. -/
def actions (n : Network σ) : Event → List Direct.Action
  | .connect => [.connect]
  | .send k cmd => [.ask k cmd]
  | .execute cmd =>
    if cmd.formatRESP2 [] <+: n.toServer then
      (n.order[n.replies.length]?.map fun a => Direct.Action.answer a.2).toList
    else []
  | _ => []

variable {serve : Serve σ} {s : σ} {n : Network σ} {k : Nat}

theorem map_modify_comm {α β : Type} {f : α → β} {g : α → α} {g' : β → β} (hg : ∀ a, f (g a) = g' (f a)) {l : List α} :
    (l.modify k g).map f = (l.map f).modify k g' := by
  refine List.ext_getElem? fun i => ?_
  rw [List.getElem?_map, List.getElem?_modify, List.getElem?_modify, List.getElem?_map]
  cases l[i]? with
  | none => rfl
  | some a =>
    show some (f (if k = i then g a else a)) = some (if k = i then g' (f a) else f a)
    split
    · rw [hg]
    · rfl

/-- A change that does not show. -/
theorem map_modify_same {α β : Type} {f : α → β} {g : α → α} (hg : ∀ a, f (g a) = f a) {l : List α} :
    (l.modify k g).map f = l.map f := by
  have hid : (l.modify k g).map f = (l.map f).modify k id := map_modify_comm hg
  rw [hid, List.modify_id]

/-! ## The log -/

theorem log_shares (h : n.replies.length ≤ n.order.length) (k : Nat) :
    (share k n.direct.log).map (·.1) = share k (n.order.take n.replies.length) := by
  have hcmds : n.direct.log.map (fun a => (a.1.1, a.2)) = n.order.take n.replies.length := by
    rw [direct, List.map_map]
    exact List.map_fst_zip (by rw [List.length_take]; omega)
  rw [← share_map, hcmds]

/-- The first command that is not executed is the next one of its client. -/
theorem direct_next (h : Whole serve s n) {cmd : Cmd} (hk : n.order[n.replies.length]? = some (cmd, k)) :
    n.direct.next k = some cmd := by
  have hlen : (share k n.direct.log).length = (share k (n.order.take n.replies.length)).length := by
    rw [← log_shares h.upward.count, List.length_map]
  obtain ⟨c, hc⟩ : ∃ c, n.clients[k]? = some c := by
    have hlt : k < n.clients.length := by
      rw [h.senders.paired]
      exact h.senders.owners _ (List.mem_of_getElem? hk)
    exact ⟨_, List.getElem?_eq_getElem hlt⟩
  obtain ⟨more, hmore⟩ := h.senders.taken k c hc
  have hget := share_next hk
  have hasked : n.direct.asked.getD k [] = c.sent := by
    show (n.clients.map (·.sent)).getD k [] = _
    rw [List.getD_eq_getElem?_getD, List.getElem?_map, hc]
    rfl
  rw [Direct.next, hlen, hasked, ← hmore, List.getElem?_append_left (List.getElem?_eq_some_iff.mp hget).1]
  exact hget

/-- One step with the proxy, and without. -/
theorem direct_step (h : Whole serve s n) (e : Event) (he : n.Calm e) :
    perform (Direct.act serve) n.direct (n.actions e) = some (n.step serve e).direct := by
  cases e with
  | connect =>
    show some _ = some _
    simp [direct, step]
  | send k cmd =>
    have hasked : n.direct.asked.modify k (· ++ [cmd]) = (n.step serve (.send k cmd)).direct.asked :=
      (map_modify_comm (by intro c; rfl)).symm
    show some (⟨n.server, _, n.direct.log⟩ : Direct σ) = some ⟨n.server, _, n.direct.log⟩
    rw [hasked]
    rfl
  | read k m beyond =>
    have hasked : (n.step serve (.read k m beyond)).direct.asked = n.direct.asked := map_modify_same (by intro c; rfl)
    have hlog : (n.step serve (.read k m beyond)).direct.log = n.direct.log := by
      show (((n.order ++ _).take n.replies.length).zip n.replies).map _ = _
      rw [List.take_append_of_le_length h.upward.count]
      rfl
    show some (⟨n.server, n.direct.asked, n.direct.log⟩ : Direct σ) = some ⟨n.server, _, _⟩
    rw [← hasked, ← hlog]
    rfl
  | write k w =>
    have hasked : (n.step serve (.write k w)).direct.asked = n.direct.asked := map_modify_same (by intro c; rfl)
    show some (⟨n.server, n.direct.asked, n.direct.log⟩ : Direct σ) = some ⟨n.server, _, n.direct.log⟩
    rw [← hasked]
    rfl
  | leave k => rfl
  | serverWrite w => rfl
  | execute cmd =>
    unfold actions step
    dsimp only
    split
    · rename_i hpre
      rw [formatRESP2_eq, List.nil_append] at hpre
      obtain ⟨k, hk⟩ := next_command h hpre
      obtain ⟨hlt, hget⟩ := List.getElem?_eq_some_iff.mp hk
      have htake : n.order.take (n.replies.length + 1) = n.order.take n.replies.length ++ [(cmd, k)] := by
        rw [List.take_succ_eq_append_getElem hlt, hget]
      have hsize : (n.order.take n.replies.length).length = n.replies.length := by
        rw [List.length_take]
        exact Nat.min_eq_left h.upward.count
      rw [hk]
      show (n.direct.act serve (.answer k)).bind (perform (Direct.act serve) · []) = _
      unfold Direct.act
      dsimp only
      rw [direct_next h hk]
      simp [perform, direct, htake, List.zip_append hsize]
    · rfl
  | serverRead m beyond => rfl

/-! ## The answers -/

theorem reply_eq {i : Nat} (hi : i < n.replies.length) : n.reply i = n.replies[i] := by
  rw [reply, List.getD_eq_getElem?_getD, List.getElem?_eq_getElem hi]
  rfl

/-- The replies of which `D` are handed over whole, as the log has them. -/
theorem handed_log {D : Nat} (hD : D ≤ n.replies.length) (hE : n.replies.length ≤ n.order.length)
    (hcalls : n.proxy.calls = Exchange.calls n.reply (n.order.take D)) (k : Nat) :
    n.handed k = (share k (n.direct.log.take D)).flatMap fun a => a.2.encode := by
  have hswap : n.proxy.calls.map Prod.swap = (n.direct.log.take D).map fun a => (a.1.2.encode, a.2) := by
    rw [hcalls]
    refine List.ext_getElem ?_ fun i h1 h2 => ?_
    · simp [Exchange.calls, direct]
      omega
    · have hi : i < D := by simp [direct] at h2; omega
      simp only [Exchange.calls, direct, List.getElem_map, List.getElem_zipIdx, List.getElem_take, List.getElem_zip,
        Prod.swap_prod_mk, Nat.zero_add, Prod.mk.injEq, and_true]
      rw [reply_eq (Nat.lt_of_lt_of_le hi hD)]
  rw [handed, hswap, share_map k fun a : Cmd × Reply => a.2.encode, List.flatMap]

/-- How many replies have been handed over: all that have been read whole. -/
theorem handed_some (h : Whole serve s n) :
    ∃ D, D ≤ n.replies.length ∧ (n.toProxy = [] → D = n.replies.length) ∧
      ∀ k, n.handed k = (share k (n.direct.log.take D)).flatMap fun a => a.2.encode := by
  obtain ⟨got, hreads⟩ := h.downward
  obtain ⟨D, P, p, hat⟩ := hreads.stands
  have hgot := hat.bytes
  have hle : D ≤ n.replies.length := Link.whole_ge hgot ⟨n.toProxy, hreads.bytes⟩
  refine ⟨D, hle, fun h0 => ?_, handed_log hle h.upward.count hat.writes⟩
  refine Nat.le_antisymm hle (Link.whole_le hgot hat.inside ?_)
  rw [← hreads.bytes, h0, List.append_nil]

theorem received_log (h : Whole serve s n) {c : Remote} (hc : n.clients[k]? = some c) :
    c.received <+: n.direct.answered k := by
  obtain ⟨D, -, -, hhanded⟩ := handed_some h
  refine (h.outputs.always k c hc).trans ?_
  rw [hhanded]
  exact List.IsPrefix.flatMap (share_mono k (List.take_prefix D _)) _

/-- The run without the proxy. -/
theorem direct_run (hsteady : ∀ s cmd, (serve s cmd).1.Steady) (r : Nat) (hr : 0 < r) (initSize minSize : Nat)
    (events : List Event) (hcalm : (start r hr s initSize minSize).Each serve Calm events) :
    perform (Direct.act serve) (Direct.start s)
        (trace (step serve) actions (start r hr s initSize minSize) events) =
      some ((start r hr s initSize minSize).run serve events).direct :=
  simulated (I := Whole serve s) (fun _ e h he => whole_step hsteady h e he) (fun _ e h he => direct_step h e he)
    events _ (whole_start serve r hr s initSize minSize) hcalm

/-- The run is one of the clients and the server alone, and each client has received the
    beginning of its answers there. -/
theorem served (hsteady : ∀ s cmd, (serve s cmd).1.Steady) (r : Nat) (hr : 0 < r) (s : σ) (initSize minSize : Nat)
    (events : List Event) (hcalm : (start r hr s initSize minSize).Each serve Calm events) :
    let n := (start r hr s initSize minSize).run serve events
    ∃ actions d, perform (Direct.act serve) (Direct.start s) actions = some d ∧
      d.server = n.server ∧ d.asked = n.clients.map (·.sent) ∧
      ∀ (k : Nat) (c : Remote), n.clients[k]? = some c → c.received <+: d.answered k :=
  ⟨_, _, direct_run hsteady r hr initSize minSize events hcalm, rfl, rfl,
    fun _ _ hc => received_log (whole_run hsteady r hr initSize minSize events hcalm) hc⟩

/-- A server that counts the commands. -/
def counter : Serve Nat := fun n _ => (.integer n, n + 1)

/-- Two clients that send one command each, the second one being read first. -/
def visit : List Event := [.connect, .connect, .send 0 [[80]], .send 1 [[81]], .read 1 11 [], .read 0 11 [],
  .serverWrite (.wrote 22), .execute [[81]], .execute [[80]], .serverRead 8 [], .write 0 (.wrote 4),
  .write 1 (.wrote 4)]

theorem counter_steady (n : Nat) (cmd : Cmd) : (counter n cmd).1.Steady := trivial

theorem visit_calm : (start 4 (by decide) 7 64 16).Each counter Calm visit := by
  refine ⟨trivial, trivial, ⟨by decide, by decide⟩, ⟨by decide, by decide⟩, ⟨[[[81]]], [], [], ?_⟩,
    ⟨[[[80]]], [], [], ?_⟩, ⟨by decide, by decide⟩, trivial, trivial, ?_, ⟨_, rfl, by decide, by decide⟩,
    ⟨_, rfl, by decide, by decide⟩, trivial⟩
  · exact ⟨⟨_, rfl, rfl, rfl⟩, ⟨_, rfl⟩, Or.inl rfl, by decide⟩
  · exact ⟨⟨_, rfl, rfl, rfl⟩, ⟨_, rfl⟩, Or.inl rfl, by decide⟩
  · unfold Calm
    decide

theorem served_two :
    let n := (start 4 (by decide) 7 64 16).run counter visit
    ∃ actions d, perform (Direct.act counter) (Direct.start 7) actions = some d ∧
      d.server = n.server ∧ d.asked = n.clients.map (·.sent) ∧
      ∀ (k : Nat) (c : Remote), n.clients[k]? = some c → c.received <+: d.answered k :=
  served counter_steady 4 (by decide) 7 64 16 visit visit_calm

/-! ## When nothing is on its way -/

/-- No byte is on its way, but from clients that have left. -/
structure Idle (n : Network σ) : Prop where
  outgoing : ∀ (k : Nat) (c : Remote), n.proxy.Live k → n.clients[k]? = some c → c.outgoing = []
  unsent : n.proxy.upstream.serverConn.sendBuffer = []
  toServer : n.toServer = []
  toProxy : n.toProxy = []
  pending : ∀ k, n.pending k = []

theorem all_executed (h : Whole serve s n) (hunsent : n.proxy.upstream.serverConn.sendBuffer = [])
    (hserver : n.toServer = []) : n.order.length ≤ n.replies.length := by
  have hbytes := h.upward.bytes
  rw [hserver, hunsent, List.append_nil] at hbytes
  by_contra hlt
  have hlt : n.replies.length < n.order.length := Nat.lt_of_not_le hlt
  rw [List.drop_eq_getElem_cons hlt, List.flatMap_cons] at hbytes
  exact encode_ne_nil _ (List.append_eq_nil_iff.mp hbytes).1

theorem idle_asked (h : Whole serve s n) (hidle : Idle n) {c : Remote} (hc : n.clients[k]? = some c)
    (hlive : n.proxy.Live k) : (share k n.direct.log).map (·.1) = c.sent := by
  obtain ⟨t, ht, -⟩ := session_of_live h.base hlive
  obtain ⟨-, rest, p, hsent, hbytes, hsits⟩ := h.senders.unread k c t hc ht hlive
  rw [hidle.outgoing k c hlive hc, List.append_nil] at hbytes
  rw [log_shares h.upward.count, List.take_of_length_le (all_executed h hidle.unsent hidle.toServer),
    hsent]
  cases rest with
  | nil => exact (List.append_nil _).symm
  | cons argv rest => exact absurd hbytes.symm (sits_short hsits)

theorem idle_received (h : Whole serve s n) (hidle : Idle n) {c : Remote} (hc : n.clients[k]? = some c)
    (hlive : n.proxy.Live k) : c.received = n.direct.answered k := by
  obtain ⟨conn, hconn⟩ := hlive
  obtain ⟨D, -, hall, hhanded⟩ := handed_some h
  have hlog : n.direct.log.take D = n.direct.log := by
    refine List.take_of_length_le ?_
    rw [hall hidle.toProxy]
    simp [direct]
  have hpending : conn.sendBuffer = [] := by
    have := hidle.pending k
    rwa [Network.pending, hconn] at this
  have hout := h.outputs.live k c conn hc hconn
  rw [hpending, List.append_nil, hhanded, hlog] at hout
  exact hout

theorem visit_idle : Idle ((start 4 (by decide) 7 64 16).run counter visit) where
  outgoing k c _ hc := by
    have hall : ∀ c ∈ ((start 4 (by decide) 7 64 16).run counter visit).clients, c.outgoing = [] := by decide
    exact hall c (List.mem_of_getElem? hc)
  unsent := rfl
  toServer := rfl
  toProxy := rfl
  pending k := by
    rcases k with _ | _ | k
    · rfl
    · rfl
    · rfl

end RedisProxy.System.Network
