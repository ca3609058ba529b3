/-
  RedisProxy.System.Delivery — every command and every reply through the proxy.

  Between events the bytes are where the logs say: what a client has sent is what was
  accepted from it, what its session has of the next command, and what is in its socket
  (`Senders`); the accepted commands are what the server has executed, what is in its
  socket, and what is not written (`Upward`); the relay stands in the replies the server
  has made (`Downward`); and what a client has been sent, with what its connection still
  holds, is the replies handed to its session (`Outputs`).

  Proved: each event of a calm run keeps these (one lemma each), so they hold in every state
  of it (`whole_run`).
-/

import RedisProxy.System.Network

namespace RedisProxy.System.Network

open Lib Lib.Decimal Lib.Pieces Lib.Shares Lib.Codes Wire Net Client Server Proxy

variable {σ : Type}

/-! ## Where the bytes are -/

/-- The `i`-th reply, anything for one that has not been made. -/
def reply (n : Network σ) (i : Nat) : Reply := n.replies.getD i .nullArray

/-- The replies handed to the `k`-th session. -/
def handed (n : Network σ) (k : Nat) : Bytes := (share k (n.proxy.calls.map Prod.swap)).flatten

structure Senders (n : Network σ) : Prop where
  paired : n.clients.length = n.proxy.sessions.length
  opened : ∀ (k : Nat) c, n.proxy.connection k = some c → c.connected = true ∧ c.closing = false
  owners : ∀ a ∈ n.order, a.2 < n.proxy.sessions.length
  valid : ∀ (k : Nat) (c : Remote), n.clients[k]? = some c → ∀ cmd ∈ c.sent, Sendable cmd
  taken : ∀ (k : Nat) (c : Remote), n.clients[k]? = some c → share k n.order <+: c.sent
  unread : ∀ (k : Nat) (c : Remote) (s : Session), n.clients[k]? = some c → n.proxy.sessions[k]? = some s →
    n.proxy.Live k →
    s.currentCmd = [] ∧ ∃ rest p, c.sent = share k n.order ++ rest ∧ rest.flatMap encode = p ++ c.outgoing ∧
      Sits rest p s.parser

structure Upward (serve : Serve σ) (s : σ) (n : Network σ) : Prop where
  opened : n.proxy.upstream.isAcceptable = true ∧ n.proxy.upstream.serverConn.closing = false
  count : n.replies.length ≤ n.order.length
  bytes : (n.order.drop n.replies.length).flatMap (fun a => encode a.1) =
    n.toServer ++ n.proxy.upstream.serverConn.sendBuffer
  replies : Runs.answers serve s ((n.order.take n.replies.length).map (·.1)) = n.replies
  server : n.server = ((n.order.take n.replies.length).map (·.1)).foldl (fun s cmd => (serve s cmd).2) s
  steady : ∀ r ∈ n.replies, r.Steady

/-- Of the replies, `got` has been read. -/
structure Reads (n : Network σ) (got : Bytes) : Prop where
  bytes : got ++ n.toProxy = Exchange.stream n.reply n.replies.length
  stands : Exchange.Stands n.proxy.identity n.reply n.order got n.proxy.upstream.serverConn
    ⟨n.proxy.upstream, n.proxy.calls⟩

def Downward (n : Network σ) : Prop := ∃ got, n.Reads got

structure Outputs (n : Network σ) : Prop where
  live : ∀ (k : Nat) (c : Remote) conn, n.clients[k]? = some c → n.proxy.connection k = some conn →
    c.received ++ conn.sendBuffer = n.handed k
  always : ∀ (k : Nat) (c : Remote), n.clients[k]? = some c → c.received <+: n.handed k

structure Whole (serve : Serve σ) (s : σ) (n : Network σ) : Prop where
  base : Proxy.Inv n.proxy
  senders : Senders n
  upward : Upward serve s n
  downward : Downward n
  outputs : Outputs n

variable {serve : Serve σ} {s : σ} {n : Network σ} {k : Nat}

theorem encode_eq : (fun cmd : Cmd => cmd.formatRESP2 []) = encode := by
  funext cmd
  rw [formatRESP2_eq, List.nil_append]

theorem getElem?_modify_some {α : Type} {l : List α} {f : α → α} {j : Nat} {a' : α}
    (h : (l.modify k f)[j]? = some a') : ∃ a, l[j]? = some a ∧ a' = if k = j then f a else a := by
  rw [List.getElem?_modify] at h
  obtain ⟨a, ha, he⟩ := Option.map_eq_some_iff.mp h
  exact ⟨a, ha, he.symm⟩

theorem share_eq_nil {l : List (Cmd × Nat)} (h : ∀ a ∈ l, a.2 ≠ k) : share k l = [] := by
  rw [share, List.filter_eq_nil_iff.mpr (fun a ha => by simpa using h a ha)]
  rfl

theorem sits_append {rest more : List Cmd} {p : Bytes} {P : CmdParser} (h : Sits rest p P) :
    Sits (rest ++ more) p P := by
  rcases h with h | ⟨argv, todo, rfl, hearly, hs⟩
  · exact Or.inl h
  · exact Or.inr ⟨argv, todo ++ more, rfl, hearly, hs⟩

/-- Every reply that was handed over was for a command of the order. -/
theorem calls_owner (h : Whole serve s n) {w : Nat × Bytes} (hw : w ∈ n.proxy.calls) :
    w.1 < n.proxy.sessions.length := by
  obtain ⟨got, hreads⟩ := h.downward
  obtain ⟨D, P, p, hat⟩ := hreads.stands
  have hcalls : n.proxy.calls = Exchange.calls n.reply (n.order.take D) := hat.writes
  rw [hcalls] at hw
  obtain ⟨a, ha, rfl⟩ := List.mem_map.mp hw
  obtain ⟨_, _, he⟩ := List.mem_zipIdx ha
  refine h.senders.owners a.1 ?_
  rw [he]
  exact List.mem_of_mem_take (List.getElem_mem _)

/-! ## Clients come, send and leave -/

theorem connect_step (h : Whole serve s n) : Whole serve s (n.step serve .connect) := by
  have hlen : n.proxy.sessions.length = n.proxy.pool.length := h.base.paired
  have hpaired := h.senders.paired
  -- what was there is there still, at the same place
  have hconn : ∀ {j conn}, (n.proxy.step .accept).connection j = some conn →
      n.proxy.connection j = some conn ∨ j = n.proxy.pool.length ∧ conn = .opened := connection_accept
  have hclient : ∀ {j c}, (n.clients ++ [(⟨[], [], []⟩ : Remote)])[j]? = some c →
      n.clients[j]? = some c ∨ j = n.clients.length ∧ c = ⟨[], [], []⟩ := by
    intro j c hc
    by_cases hj : j < n.clients.length
    · rw [List.getElem?_append_left hj] at hc
      exact Or.inl hc
    · rw [List.getElem?_append_right (Nat.le_of_not_lt hj), List.getElem?_singleton] at hc
      split at hc
      · exact Or.inr ⟨by omega, (Option.some.inj hc).symm⟩
      · cases hc
  have hnew : share n.clients.length n.order = [] := share_eq_nil fun a ha => by
    have := h.senders.owners a ha
    omega
  have hhanded : n.handed n.clients.length = [] := by
    unfold handed
    rw [share, List.filter_eq_nil_iff.mpr, List.map_nil, List.flatten_nil]
    intro w hw
    obtain ⟨v, hv, rfl⟩ := List.mem_map.mp hw
    have := calls_owner h hv
    simp only [Prod.snd_swap, decide_eq_true_eq]
    omega
  refine ⟨inv_step h.base .accept trivial, ⟨?_, ?_, ?_, ?_, ?_, ?_⟩, ⟨h.upward.opened, h.upward.count,
    h.upward.bytes, h.upward.replies, h.upward.server, h.upward.steady⟩, ?_, ⟨?_, ?_⟩⟩
  · show (n.clients ++ _).length = (n.proxy.sessions ++ _).length
    rw [List.length_append, List.length_append, hpaired]
    rfl
  · intro j conn hc
    rcases hconn hc with hc | ⟨-, rfl⟩
    · exact h.senders.opened j conn hc
    · exact ⟨rfl, rfl⟩
  · intro a ha
    show a.2 < (n.proxy.sessions ++ _).length
    rw [List.length_append]
    exact Nat.lt_add_right _ (h.senders.owners a ha)
  · intro j c hc
    rcases hclient hc with hc | ⟨-, rfl⟩
    · exact h.senders.valid j c hc
    · intro cmd hm
      cases hm
  · intro j c hc
    rcases hclient hc with hc | ⟨rfl, rfl⟩
    · exact h.senders.taken j c hc
    · show share _ n.order <+: []
      rw [hnew]
  · intro j c t hc ht hlive
    have ht : (n.proxy.sessions ++ [Session.create (n.proxy.idCounter + 1) n.proxy.pool.length])[j]? = some t := ht
    rcases hclient hc with hc | ⟨rfl, rfl⟩
    · have hj : j < n.proxy.sessions.length := hpaired ▸ (List.getElem?_eq_some_iff.mp hc).1
      rw [List.getElem?_append_left hj] at ht
      obtain ⟨conn, hl⟩ := hlive
      rcases hconn hl with hl | ⟨rfl, -⟩
      · exact h.senders.unread j c t hc ht ⟨conn, hl⟩
      · omega
    · rw [List.getElem?_append_right (by omega), hpaired, Nat.sub_self] at ht
      obtain rfl := Option.some.inj ht
      refine ⟨rfl, [], [], ?_, rfl, Or.inl ⟨rfl, rfl⟩⟩
      show [] = share _ n.order ++ []
      rw [hnew]
      rfl
  · obtain ⟨got, hreads⟩ := h.downward
    refine ⟨got, hreads.bytes, Exchange.stands_identity hreads.stands fun a ha => ?_⟩
    exact identity_congr (List.getElem?_append_left (h.senders.owners a ha))
  · intro j c conn hc hl
    rcases hclient hc with hc | ⟨rfl, rfl⟩
    · have hj : j < n.clients.length := (List.getElem?_eq_some_iff.mp hc).1
      rcases hconn hl with hl | ⟨rfl, -⟩
      · exact h.outputs.live j c conn hc hl
      · omega
    · rcases hconn hl with hl | ⟨-, rfl⟩
      · have := live_lt ⟨conn, hl⟩
        omega
      · exact hhanded.symm
  · intro j c hc
    rcases hclient hc with hc | ⟨rfl, rfl⟩
    · exact h.outputs.always j c hc
    · exact List.nil_prefix

theorem send_step (h : Whole serve s n) (k : Nat) {cmd : Cmd} (hcmd : Sendable cmd) :
    Whole serve s (n.step serve (.send k cmd)) := by
  refine ⟨h.base, ⟨?_, h.senders.opened, h.senders.owners, ?_, ?_, ?_⟩, ⟨h.upward.opened, h.upward.count,
    h.upward.bytes, h.upward.replies, h.upward.server, h.upward.steady⟩, ?_, ⟨?_, ?_⟩⟩
  · show (n.clients.modify k _).length = _
    rw [List.length_modify]
    exact h.senders.paired
  · intro j c hc
    obtain ⟨c, hget, rfl⟩ := getElem?_modify_some hc
    have hold := h.senders.valid j c hget
    split
    · intro x hx
      rcases List.mem_append.mp hx with hx | hx
      · exact hold x hx
      · rw [List.mem_singleton.mp hx]
        exact hcmd
    · exact hold
  · intro j c hc
    obtain ⟨c, hget, rfl⟩ := getElem?_modify_some hc
    have hold := h.senders.taken j c hget
    split
    · exact hold.trans (List.prefix_append _ _)
    · exact hold
  · intro j c t hc ht hlive
    obtain ⟨c, hget, rfl⟩ := getElem?_modify_some hc
    obtain ⟨hcur, rest, p, hsent, hbytes, hsits⟩ := h.senders.unread j c t hget ht hlive
    split
    · refine ⟨hcur, rest ++ [cmd], p, ?_, ?_, sits_append hsits⟩
      · show c.sent ++ [cmd] = share j n.order ++ _
        rw [hsent, List.append_assoc]
      · rw [List.flatMap_append, hbytes, formatRESP2_eq]
        simp
    · exact ⟨hcur, rest, p, hsent, hbytes, hsits⟩
  · obtain ⟨got, hreads⟩ := h.downward
    exact ⟨got, hreads.bytes, hreads.stands⟩
  · intro j c conn hc hl
    obtain ⟨c, hget, rfl⟩ := getElem?_modify_some hc
    have hold := h.outputs.live j c conn hget hl
    split <;> exact hold
  · intro j c hc
    obtain ⟨c, hget, rfl⟩ := getElem?_modify_some hc
    have hold := h.outputs.always j c hget
    split <;> exact hold

theorem leave_step (h : Whole serve s n) (hk : ¬ n.proxy.Waits k) : Whole serve s (n.step serve (.leave k)) := by
  obtain ⟨got, hreads⟩ := h.downward
  refine ⟨inv_step h.base (.close k) hk, ⟨h.senders.paired, ?_, h.senders.owners, h.senders.valid, h.senders.taken,
    ?_⟩, ⟨h.upward.opened, h.upward.count, h.upward.bytes, h.upward.replies, h.upward.server, h.upward.steady⟩,
    ⟨got, hreads.bytes, hreads.stands⟩, ⟨?_, h.outputs.always⟩⟩
  · exact fun j conn hc => h.senders.opened j conn (connection_close hc)
  · rintro j c t hc ht ⟨conn, hl⟩
    exact h.senders.unread j c t hc ht ⟨conn, connection_close hl⟩
  · exact fun j c conn hc hl => h.outputs.live j c conn hc (connection_close hl)

/-! ## Commands go up -/

/-- A calm read is one whose commands are all accepted. -/
theorem fed (h : Whole serve s n) {m : Nat} {new rest : List Cmd} {q : Bytes} (hclean : n.Clean k m new rest q)
    (beyond : Bytes) : Fed n.proxy k new rest q (n.proxy.onClientRead k (n.incoming k m, beyond)) ∧
      n.proxy.forwarded k (n.incoming k m, beyond) = new := by
  obtain ⟨c, hc, hsent, hrest⟩ := hclean.client
  obtain ⟨conn, hconn⟩ := hclean.live
  obtain ⟨t, ht, -⟩ := session_of_live h.base hclean.live
  obtain ⟨hcur, todo, p, hsent', hbytes, hsits⟩ := h.senders.unread k c t hc ht hclean.live
  rw [encode_eq] at hrest
  -- the read brings what lies between `p` and `q`
  obtain rfl : todo = new ++ rest := List.append_cancel_left (hsent'.symm.trans hsent)
  have hin : n.incoming k m = c.outgoing.take m := by rw [incoming, hc]; rfl
  have hchunk : p ++ n.incoming k m = new.flatMap encode ++ q := by
    rw [List.flatMap_append, hrest] at hbytes
    have hall : p ++ c.outgoing.take m ++ c.outgoing.drop m = new.flatMap encode ++ q ++ c.outgoing.drop m := by
      rw [List.append_assoc, List.take_append_drop, ← hbytes, List.append_assoc]
    rw [hin]
    exact List.append_cancel_right hall
  have hsize : ∀ argv ∈ new ++ rest, (encode argv).length < 2 ^ 31 := by
    intro argv ha
    have := (h.senders.valid k c hc argv (by rw [hsent']; exact List.mem_append_right _ ha)).2
    rwa [formatRESP2_eq, List.nil_append] at this
  exact fed_read ht hconn hcur (h.base.own k t ht).2 hsits hclean.cut hchunk hsize h.upward.opened.1 hclean.room

theorem read_step (h : Whole serve s n) {m : Nat} {new rest : List Cmd} {q : Bytes} (hclean : n.Clean k m new rest q)
    (beyond : Bytes) : Whole serve s (n.step serve (.read k m beyond)) := by
  obtain ⟨hfed, hforwarded⟩ := fed h hclean beyond
  obtain ⟨c, hc, hsent, hrest⟩ := hclean.client
  rw [encode_eq] at hrest
  obtain ⟨t, ht, -⟩ := session_of_live h.base hclean.live
  obtain ⟨hcur, -⟩ := h.senders.unread k c t hc ht hclean.live
  obtain ⟨t', P, ht', hsits', hsessions⟩ := hfed.session
  obtain rfl := Option.some.inj (ht.symm.trans ht')
  have hproxy : (n.step serve (.read k m beyond)).proxy = n.proxy.onClientRead k (n.incoming k m, beyond) := rfl
  have horder : (n.step serve (.read k m beyond)).order = n.order ++ new.map fun cmd => (cmd, k) := by
    show n.order ++ _ = _
    rw [hforwarded]
  have hlive : ∀ j, (n.step serve (.read k m beyond)).proxy.connection j = n.proxy.connection j := fun j => by
    rw [hproxy, Proxy.connection, Proxy.connection, hfed.pool]
  have hk : k < n.proxy.sessions.length := (List.getElem?_eq_some_iff.mp ht).1
  have hshare : share k (n.step serve (.read k m beyond)).order = share k n.order ++ new := by
    rw [horder, share_append, share_own]
  have hother : ∀ {j}, k ≠ j → share j (n.step serve (.read k m beyond)).order = share j n.order := fun hkj => by
    rw [horder, share_append, share_other hkj, List.append_nil]
  refine ⟨inv_step h.base (.read k (n.incoming k m) beyond) trivial, ⟨?_, ?_, ?_, ?_, ?_, ?_⟩, ⟨?_, ?_, ?_, ?_, ?_,
    h.upward.steady⟩, ?_, ⟨?_, ?_⟩⟩
  · show (n.clients.modify k _).length = _
    rw [List.length_modify, hproxy, hsessions, List.length_set]
    exact h.senders.paired
  · intro j conn' hl
    rw [hlive] at hl
    exact h.senders.opened j conn' hl
  · intro a ha
    rw [hproxy, hsessions, List.length_set]
    rw [horder] at ha
    rcases List.mem_append.mp ha with ha | ha
    · exact h.senders.owners a ha
    · obtain ⟨cmd, -, rfl⟩ := List.mem_map.mp ha
      exact hk
  · intro j d hd
    obtain ⟨d, hget, rfl⟩ := getElem?_modify_some hd
    have hold := h.senders.valid j d hget
    split <;> exact hold
  · intro j d hd
    obtain ⟨d, hget, rfl⟩ := getElem?_modify_some hd
    by_cases hkj : k = j
    · subst hkj
      obtain rfl := Option.some.inj (hc.symm.trans hget)
      rw [if_pos rfl, hshare]
      show _ <+: c.sent
      rw [hsent, ← List.append_assoc]
      exact List.prefix_append _ _
    · rw [if_neg hkj, hother hkj]
      exact h.senders.taken j d hget
  · rintro j d t' hd ht' ⟨conn', hl⟩
    obtain ⟨d, hget, rfl⟩ := getElem?_modify_some hd
    rw [hlive] at hl
    rw [hproxy, hsessions] at ht'
    by_cases hkj : k = j
    · subst hkj
      obtain rfl := Option.some.inj (hc.symm.trans hget)
      rw [List.getElem?_set_self hk] at ht'
      obtain rfl := Option.some.inj ht'
      rw [if_pos rfl, hshare]
      refine ⟨hcur, rest, q, ?_, hrest, hsits'⟩
      show c.sent = _
      rw [hsent, List.append_assoc]
    · rw [List.getElem?_set_ne hkj] at ht'
      rw [if_neg hkj, hother hkj]
      exact h.senders.unread j d t' hget ht' ⟨conn', hl⟩
  · refine ⟨hfed.upstream.acceptable.trans h.upward.opened.1, ?_⟩
    rw [hproxy, hfed.upstream.conn]
    exact h.upward.opened.2
  · rw [horder, List.length_append]
    exact Nat.le_add_right_of_le h.upward.count
  · show ((n.step serve (.read k m beyond)).order.drop n.replies.length).flatMap _ = n.toServer ++ _
    rw [horder, List.drop_append_of_le_length h.upward.count, List.flatMap_append, h.upward.bytes, hproxy,
      hfed.upstream.conn, List.append_assoc, List.flatMap_map]
  · show Runs.answers serve s (((n.step serve (.read k m beyond)).order.take n.replies.length).map _) = n.replies
    rw [horder, List.take_append_of_le_length h.upward.count]
    exact h.upward.replies
  · show n.server = (((n.step serve (.read k m beyond)).order.take n.replies.length).map _).foldl _ s
    rw [horder, List.take_append_of_le_length h.upward.count]
    exact h.upward.server
  · obtain ⟨got, hreads⟩ := h.downward
    have hstands := Upstream.stands_took hreads.stands hfed.upstream
    refine ⟨got, hreads.bytes, ?_⟩
    have hsame : ({ t with parser := P } : Session).id = t.id := rfl
    have hid : (n.step serve (.read k m beyond)).proxy.identity = n.proxy.identity := identity_set ht hsame _ hsessions
    have hcalls : (n.step serve (.read k m beyond)).proxy.calls = n.proxy.calls := by
      rw [hproxy, Proxy.calls, Proxy.calls, hfed.served]
    rw [hid, hcalls, horder]
    exact hstands
  · intro j d conn' hd hl
    obtain ⟨d, hget, rfl⟩ := getElem?_modify_some hd
    rw [hlive] at hl
    have hold := h.outputs.live j d conn' hget hl
    have hsame : (n.step serve (.read k m beyond)).handed j = n.handed j := by
      rw [handed, handed, hproxy, Proxy.calls, Proxy.calls, hfed.served]
    rw [hsame]
    split <;> exact hold
  · intro j d hd
    obtain ⟨d, hget, rfl⟩ := getElem?_modify_some hd
    have hold := h.outputs.always j d hget
    have hsame : (n.step serve (.read k m beyond)).handed j = n.handed j := by
      rw [handed, handed, hproxy, Proxy.calls, Proxy.calls, hfed.served]
    rw [hsame]
    split <;> exact hold

theorem serverWrite_step (h : Whole serve s n) {w : WriteResult} (hw : n.proxy.upstream.serverConn.Possible w) :
    Whole serve s (n.step serve (.serverWrite w)) := by
  obtain ⟨hbuf, hconn, hclosing⟩ := Connection.onWritable_keeps h.upward.opened.2 hw
  obtain ⟨got, hreads⟩ := h.downward
  obtain ⟨D, P, p, hat⟩ := hreads.stands
  have hopen : (n.proxy.upstream.onWritable w).isAcceptable = n.proxy.upstream.isAcceptable := by
    show ((n.proxy.upstream.serverConn.onWritable w).2.connected && _) = _
    rw [hconn]
    rfl
  refine ⟨inv_step h.base (.serverWrite w) trivial, ⟨h.senders.paired, h.senders.opened, h.senders.owners,
    h.senders.valid, h.senders.taken, h.senders.unread⟩, ⟨⟨hopen.trans h.upward.opened.1, hclosing⟩, h.upward.count, ?_,
    h.upward.replies, h.upward.server, h.upward.steady⟩, ⟨got, hreads.bytes, D, P, p, { hat with conn := rfl }⟩,
    ⟨h.outputs.live, h.outputs.always⟩⟩
  show _ = n.toServer ++ _ ++ (n.proxy.upstream.serverConn.onWritable w).2.sendBuffer
  rw [hbuf, List.append_assoc, List.take_append_drop]
  exact h.upward.bytes

/-- What the server takes is the first command that it has not executed. -/
theorem next_command (h : Whole serve s n) {cmd : Cmd} (hpre : encode cmd <+: n.toServer) :
    ∃ k, n.order[n.replies.length]? = some (cmd, k) := by
  obtain ⟨rest, hrest⟩ := hpre
  have hhead : encode cmd <+: ((n.order.drop n.replies.length).map (·.1)).flatMap encode := by
    rw [List.flatMap_map, h.upward.bytes, ← hrest, List.append_assoc]
    exact List.prefix_append _ _
  obtain ⟨more, hmore⟩ := delimited_encode.head (encode_ne_nil cmd) hhead
  have hget := congrArg (·[0]?) hmore
  simp only [List.getElem?_map, List.getElem?_drop, Nat.add_zero, List.getElem?_cons_zero] at hget
  obtain ⟨a, ha, rfl⟩ := Option.map_eq_some_iff.mp hget
  exact ⟨a.2, ha⟩

theorem execute_step (hsteady : ∀ s cmd, (serve s cmd).1.Steady) (h : Whole serve s n) (cmd : Cmd) :
    Whole serve s (n.step serve (.execute cmd)) := by
  unfold step
  dsimp only
  split
  · rename_i hpre
    rw [formatRESP2_eq, List.nil_append] at hpre ⊢
    obtain ⟨k, hk⟩ := next_command h hpre
    obtain ⟨rest, hrest⟩ := hpre
    have hbytes := h.upward.bytes
    obtain ⟨hlt, hget⟩ := List.getElem?_eq_some_iff.mp hk
    have hdrop : n.order.drop n.replies.length = (cmd, k) :: n.order.drop (n.replies.length + 1) := by
      rw [List.drop_eq_getElem_cons hlt, hget]
    have htake : n.order.take (n.replies.length + 1) = n.order.take n.replies.length ++ [(cmd, k)] := by
      rw [List.take_succ_eq_append_getElem hlt, hget]
    have hlen : (n.replies ++ [(serve n.server cmd).1]).length = n.replies.length + 1 := by simp
    obtain ⟨got, hreads⟩ := h.downward
    have hsame : ∀ i < n.replies.length,
        (n.replies ++ [(serve n.server cmd).1]).getD i .nullArray = n.replies.getD i .nullArray :=
      fun i hi => List.getD_append _ _ _ _ hi
    have hlast : (n.replies ++ [(serve n.server cmd).1]).getD n.replies.length .nullArray = (serve n.server cmd).1 := by
      rw [List.getD_append_right _ _ _ _ (Nat.le_refl _), Nat.sub_self]
      rfl
    refine ⟨h.base, ⟨h.senders.paired, h.senders.opened, h.senders.owners, h.senders.valid, h.senders.taken,
      h.senders.unread⟩, ⟨h.upward.opened, ?_, ?_, ?_, ?_, ?_⟩, ⟨got, ?_, ?_⟩, ⟨h.outputs.live, h.outputs.always⟩⟩
    · rw [hlen]
      exact hlt
    · rw [hlen]
      show (n.order.drop (n.replies.length + 1)).flatMap _ = n.toServer.drop (encode cmd).length ++ _
      rw [hdrop, List.flatMap_cons, ← hrest, List.append_assoc, List.append_cancel_left_eq] at hbytes
      rw [← hrest, List.drop_left]
      exact hbytes
    · rw [hlen]
      show Runs.answers serve s ((n.order.take _).map _) = _
      rw [htake, List.map_append, List.map_singleton, Direct.answers_snoc, h.upward.replies, ← h.upward.server]
    · rw [hlen]
      show (serve n.server cmd).2 = ((n.order.take _).map _).foldl _ s
      rw [htake, List.map_append, List.map_singleton, List.foldl_append, ← h.upward.server]
      rfl
    · intro r hr
      rcases List.mem_append.mp hr with hr | hr
      · exact h.upward.steady r hr
      · rw [List.mem_singleton.mp hr]
        exact hsteady n.server cmd
    · show got ++ (n.toProxy ++ (serve n.server cmd).1.encode) =
        Exchange.stream (fun i => (n.replies ++ [(serve n.server cmd).1]).getD i .nullArray) _
      rw [hlen, Exchange.stream_succ, Exchange.stream_congr hsame, ← List.append_assoc, hreads.bytes, hlast]
      rfl
    · exact Exchange.stands_reply hreads.stands hsame ⟨n.toProxy, hreads.bytes⟩
  · exact h

/-! ## Replies come down -/

theorem Upward.replies_steady (h : Upward serve s n) (i : Nat) : (n.reply i).Steady := by
  unfold reply
  rw [List.getD_eq_getElem?_getD]
  cases hi : n.replies[i]? with
  | none => trivial
  | some x => exact h.steady x (List.mem_of_getElem? hi)

/-- What a read brings are replies to commands of the order. -/
theorem arrived {got : Bytes} (h : Upward serve s n) (hreads : n.Reads got) (m : Nat) :
    got ++ n.arriving m <+: Exchange.stream n.reply n.order.length := by
  refine List.IsPrefix.trans ?_ (Exchange.stream_le h.count)
  rw [← hreads.bytes, List.prefix_append_right_inj]
  exact List.take_prefix _ _

theorem serverRead_step (h : Whole serve s n) {m : Nat}
    (hroom : n.proxy.upstream.parser.inputb.length + (n.arriving m).length < 2 ^ 31) (beyond : Bytes) :
    Whole serve s (n.step serve (.serverRead m beyond)) := by
  obtain ⟨got, hreads⟩ := h.downward
  have hproxy : (n.step serve (.serverRead m beyond)).proxy = n.proxy.onServerRead (n.arriving m, beyond) := rfl
  have hhanded := handed_read h.base (fun j c hc => (h.senders.opened j c hc).1) (n.arriving m, beyond)
  generalize hr : (⟨n.proxy.upstream, []⟩ : Relay Nat).onReadable n.proxy.identity (n.arriving m, beyond) = r
    at hhanded
  have hsteady := h.upward.replies_steady
  have hstream := arrived h.upward hreads m
  obtain ⟨D, P, p, hat⟩ := hreads.stands
  have hstands := Exchange.stands_read hsteady hat beyond hstream (by
    show (n.proxy.upstream.parser.inputb ++ n.arriving m).length < 2 ^ 31
    rw [List.length_append]
    exact hroom)
  rw [Relay.onReadable_writes, hr] at hstands
  obtain ⟨D', P', p', hat'⟩ := hstands
  have hsessions : (n.step serve (.serverRead m beyond)).proxy.sessions = n.proxy.sessions := hproxy ▸ hhanded.sessions
  have hup : (n.step serve (.serverRead m beyond)).proxy.upstream = r.upstream := hproxy ▸ hhanded.upstream
  have hcalls : (n.step serve (.serverRead m beyond)).proxy.calls = n.proxy.calls ++ r.writes := hproxy ▸ hhanded.served
  have hserver : r.upstream.serverConn = n.proxy.upstream.serverConn := hat'.conn
  have hconn : ∀ {j c'}, (n.step serve (.serverRead m beyond)).proxy.connection j = some c' →
      ∃ c, n.proxy.connection j = some c ∧ c' = deliver c (share j (r.writes.map Prod.swap)) := by
    intro j c' hc'
    rw [hproxy, hhanded.connection] at hc'
    obtain ⟨c, hc, he⟩ := Option.map_eq_some_iff.mp hc'
    exact ⟨c, hc, he.symm⟩
  have hgot : ∀ j, (n.step serve (.serverRead m beyond)).handed j =
      n.handed j ++ (share j (r.writes.map Prod.swap)).flatten :=
    fun j => by rw [handed, handed, hcalls, List.map_append, share_append, List.flatten_append]
  have hauth : r.upstream.auth = n.proxy.upstream.auth := by
    rw [← hr]
    exact (Relay.onReadable_kept _ _).auth
  refine ⟨inv_step h.base (.serverRead _ beyond) trivial, ⟨?_, ?_, ?_, h.senders.valid, h.senders.taken, ?_⟩,
    ⟨⟨?_, ?_⟩, h.upward.count, ?_, h.upward.replies, h.upward.server, h.upward.steady⟩,
    ⟨got ++ n.arriving m, ?_, ?_⟩, ⟨?_, ?_⟩⟩
  · rw [hsessions]
    exact h.senders.paired
  · intro j c' hc'
    obtain ⟨c, hc, rfl⟩ := hconn hc'
    rw [deliver_connected, deliver_closing]
    exact h.senders.opened j c hc
  · intro a ha
    rw [hsessions]
    exact h.senders.owners a ha
  · rintro j c t hc ht ⟨c', hc'⟩
    obtain ⟨conn, hconn', -⟩ := hconn hc'
    rw [hsessions] at ht
    exact h.senders.unread j c t hc ht ⟨conn, hconn'⟩
  · rw [hup]
    show (r.upstream.serverConn.connected && r.upstream.auth) = true
    rw [hserver, hauth]
    exact h.upward.opened.1
  · rw [hup, hserver]
    exact h.upward.opened.2
  · rw [hup, hserver]
    exact h.upward.bytes
  · show got ++ n.arriving m ++ n.toProxy.drop (n.arriving m).length = _
    rw [List.append_assoc, arriving_drop]
    exact hreads.bytes
  · rw [hup, hcalls, hserver]
    have hid : (n.step serve (.serverRead m beyond)).proxy.identity = n.proxy.identity := by
      funext j
      exact identity_congr (by rw [hsessions])
    rw [hid]
    exact ⟨D', P', p', hat'⟩
  · intro j c conn' hc hl
    obtain ⟨conn, hold, rfl⟩ := hconn hl
    rw [deliver_sendBuffer, ← List.append_assoc, h.outputs.live j c conn hc hold, hgot]
  · intro j c hc
    rw [hgot]
    exact (h.outputs.always j c hc).trans (List.prefix_append _ _)

theorem write_step (h : Whole serve s n) {conn : Connection} (hl : n.proxy.connection k = some conn) {w : WriteResult}
    (hw : conn.Possible w) : Whole serve s (n.step serve (.write k w)) := by
  obtain ⟨hopen, hclosing⟩ := h.senders.opened k conn hl
  obtain ⟨hbuf, hconnected, hclosing'⟩ := Connection.onWritable_keeps hclosing hw
  have hproxy : (n.step serve (.write k w)).proxy =
      { n.proxy with pool := n.proxy.pool.set k (some (conn.onWritable w).2) } := onClientWrite_open hl hclosing w
  have hconn : ∀ j, (n.step serve (.write k w)).proxy.connection j =
      if k = j then some (conn.onWritable w).2 else n.proxy.connection j := by
    intro j
    rw [hproxy]
    exact connection_set ⟨conn, hl⟩ j
  have hpending : n.pending k = conn.sendBuffer := by rw [pending, hl]; rfl
  have hhanded : ∀ j, (n.step serve (.write k w)).handed j = n.handed j := fun j => by
    rw [handed, handed, hproxy]
    rfl
  have hsettled : Settled n.proxy (.write k w) := by
    intro c hc he
    obtain rfl := Option.some.inj (hl.symm.trans hc)
    exact absurd he (onWritable_not_closed hclosing w)
  obtain ⟨got, hreads⟩ := h.downward
  refine ⟨inv_step h.base (.write k w) hsettled, ⟨?_, ?_, ?_, ?_, ?_, ?_⟩, ⟨?_, h.upward.count, ?_, h.upward.replies,
    h.upward.server, h.upward.steady⟩, ⟨got, hreads.bytes, ?_⟩, ⟨?_, ?_⟩⟩
  · show (n.clients.modify k _).length = _
    rw [List.length_modify, hproxy]
    exact h.senders.paired
  · intro j c hc
    rw [hconn] at hc
    split at hc
    · obtain rfl := Option.some.inj hc
      exact ⟨hconnected.trans hopen, hclosing'⟩
    · exact h.senders.opened j c hc
  · rw [hproxy]
    exact h.senders.owners
  · intro j d hd
    obtain ⟨d, hget, rfl⟩ := getElem?_modify_some hd
    have hold := h.senders.valid j d hget
    split <;> exact hold
  · intro j d hd
    obtain ⟨d, hget, rfl⟩ := getElem?_modify_some hd
    have hold := h.senders.taken j d hget
    split <;> exact hold
  · rintro j d t hd ht ⟨c, hc⟩
    obtain ⟨d, hget, rfl⟩ := getElem?_modify_some hd
    rw [hproxy] at ht
    have hlive : n.proxy.Live j := by
      rw [hconn] at hc
      split at hc
      · rename_i hkj
        exact hkj ▸ ⟨conn, hl⟩
      · exact ⟨c, hc⟩
    have hold := h.senders.unread j d t hget ht hlive
    split <;> exact hold
  · rw [hproxy]
    exact h.upward.opened
  · rw [hproxy]
    exact h.upward.bytes
  · rw [hproxy]
    exact hreads.stands
  · intro j d c hd hc
    obtain ⟨d, hget, rfl⟩ := getElem?_modify_some hd
    rw [hconn] at hc
    rw [hhanded]
    by_cases hkj : k = j
    · subst hkj
      rw [if_pos rfl] at hc ⊢
      obtain rfl := Option.some.inj hc
      show d.received ++ (n.pending k).take w.taken ++ (conn.onWritable w).2.sendBuffer = n.handed k
      rw [hbuf, hpending, List.append_assoc, List.take_append_drop]
      exact h.outputs.live k d conn hget hl
    · rw [if_neg hkj] at hc ⊢
      exact h.outputs.live j d c hget hc
  · intro j d hd
    obtain ⟨d, hget, rfl⟩ := getElem?_modify_some hd
    rw [hhanded]
    by_cases hkj : k = j
    · subst hkj
      rw [if_pos rfl]
      show d.received ++ (n.pending k).take w.taken <+: n.handed k
      rw [← h.outputs.live k d conn hget hl, hpending, List.prefix_append_right_inj]
      exact List.take_prefix _ _
    · rw [if_neg hkj]
      exact h.outputs.always j d hget

/-! ## Over a run -/

theorem whole_start (serve : Serve σ) (r : Nat) (hr : 0 < r) (s : σ) (initSize minSize : Nat) :
    Whole serve s (start r hr s initSize minSize) where
  base := inv_start r hr
  senders := by
    refine ⟨rfl, ?_, ?_, ?_, ?_, ?_⟩
    · intro k c hc
      cases hc
    · intro a ha
      cases ha
    · intro k c hc
      cases hc
    · intro k c hc
      cases hc
    · intro k c t hc
      cases hc
  upward := ⟨⟨rfl, rfl⟩, Nat.le_refl _, rfl, rfl, rfl, fun r hr => by cases hr⟩
  downward := ⟨[], rfl, 0, .init, [], ⟨Nat.zero_le _, rfl, proper_nil (Reply.encode_ne_nil _), rfl, .start,
    Recycle.held_create r hr, rfl, rfl⟩⟩
  outputs := by
    refine ⟨?_, ?_⟩
    · intro k c conn hc
      cases hc
    · intro k c hc
      cases hc

theorem whole_step (hsteady : ∀ s cmd, (serve s cmd).1.Steady) (h : Whole serve s n) (e : Event) (he : n.Calm e) :
    Whole serve s (n.step serve e) := by
  cases e with
  | connect => exact connect_step h
  | send k cmd => exact send_step h k he
  | read k m beyond =>
    obtain ⟨new, rest, q, hclean⟩ := he
    exact read_step h hclean beyond
  | write k w =>
    obtain ⟨conn, hl, hw⟩ := he
    exact write_step h hl hw
  | leave k => exact leave_step h he
  | serverWrite w => exact serverWrite_step h he
  | execute cmd => exact execute_step hsteady h cmd
  | serverRead m beyond => exact serverRead_step h he beyond

theorem whole_run (hsteady : ∀ s cmd, (serve s cmd).1.Steady) (r : Nat) (hr : 0 < r) (initSize minSize : Nat)
    (events : List Event) (hcalm : (start r hr s initSize minSize).Each serve Calm events) :
    Whole serve s ((start r hr s initSize minSize).run serve events) :=
  Runs.each_run (I := Whole serve s) (fun _ e h he => whole_step hsteady h e he) events _
    (whole_start serve r hr s initSize minSize) hcalm

end RedisProxy.System.Network
