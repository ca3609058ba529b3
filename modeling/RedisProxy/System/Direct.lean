/-
  RedisProxy.System.Direct — what the proxy is for: the clients and the server, with
  nothing between them.

  A client asks; the server takes the next command of some client and answers it at once.
  Which client it takes is free, which command of that client is not.

  Proved: `performed`, over every run: the server has executed the commands of the log one
  after the other, and those of a client are a prefix of what that client has asked, in
  its order.
-/

import Mathlib.Data.List.GetD
import Mathlib.Data.List.Infix
import RedisProxy.Lib.Shares
import RedisProxy.Lib.Simulation
import RedisProxy.Wire.Reply

namespace RedisProxy.System

open Lib Lib.Decimal Lib.Shares Lib.Simulation Wire

/-- A server: its state, and what a command does to it. -/
abbrev Serve (σ : Type) := σ → Cmd → Reply × σ

structure Direct (σ : Type) where
  server : σ
  /-- The commands of each client. -/
  asked : List (List Cmd)
  /-- What has been executed, with its reply and its client. -/
  log : List ((Cmd × Reply) × Nat)

namespace Direct

variable {σ : Type}

def start (s : σ) : Direct σ := ⟨s, [], []⟩

inductive Action where
  | connect
  | ask (k : Nat) (cmd : Cmd)
  | answer (k : Nat)
  deriving DecidableEq, Repr

/-- The first command of the `k`-th client that has no answer. -/
def next (d : Direct σ) (k : Nat) : Option Cmd := (d.asked.getD k [])[(share k d.log).length]?

def act (serve : Serve σ) (d : Direct σ) : Action → Option (Direct σ)
  | .connect => some { d with asked := d.asked ++ [[]] }
  | .ask k cmd => some { d with asked := d.asked.modify k (· ++ [cmd]) }
  | .answer k =>
    match d.next k with
    | some cmd => some { d with
        server := (serve d.server cmd).2
        log := d.log ++ [((cmd, (serve d.server cmd).1), k)] }
    | none => none

/-- The replies the `k`-th client has been given, as bytes. -/
def answered (d : Direct σ) (k : Nat) : Bytes := (share k d.log).flatMap fun a => a.2.encode

/-- The log is one run of the server, and each client's part of it is in that client's order. -/
structure Ordered (serve : Serve σ) (s : σ) (d : Direct σ) : Prop where
  replies : Runs.answers serve s (d.log.map (·.1.1)) = d.log.map (·.1.2)
  server : d.server = (d.log.map (·.1.1)).foldl (fun s cmd => (serve s cmd).2) s
  clients : ∀ k, (share k d.log).map (·.1) <+: d.asked.getD k []

variable {serve : Serve σ} {s : σ} {d d' : Direct σ}

theorem answers_snoc {ω ε : Type} (f : σ → ε → ω × σ) (e : ε) (events : List ε) : ∀ s,
    Runs.answers f s (events ++ [e]) =
      Runs.answers f s events ++ [(f (events.foldl (fun s e => (f s e).2) s) e).1] := by
  induction events with
  | nil => intro s; rfl
  | cons x events ih =>
    intro s
    show _ :: Runs.answers f _ (events ++ [e]) = _ :: (_ ++ _)
    rw [ih]
    rfl

theorem act_ordered (h : Ordered serve s d) (a : Action) (hd : d.act serve a = some d') : Ordered serve s d' := by
  cases a with
  | connect =>
    obtain rfl := Option.some.inj hd
    refine ⟨h.replies, h.server, fun k => (h.clients k).trans ?_⟩
    show d.asked.getD k [] <+: (d.asked ++ [[]]).getD k []
    by_cases hk : k < d.asked.length
    · rw [List.getD_append _ _ _ _ hk]
    · rw [List.getD_eq_default _ _ (Nat.le_of_not_lt hk)]
      exact List.nil_prefix
  | ask j cmd =>
    obtain rfl := Option.some.inj hd
    refine ⟨h.replies, h.server, fun k => (h.clients k).trans ?_⟩
    show d.asked.getD k [] <+: (d.asked.modify j (· ++ [cmd])).getD k []
    rw [List.getD_eq_getElem?_getD, List.getD_eq_getElem?_getD, List.getElem?_modify]
    cases d.asked[k]? with
    | none => exact List.prefix_refl _
    | some cmds =>
      show cmds <+: if j = k then cmds ++ [cmd] else cmds
      split
      · exact List.prefix_append _ _
      · exact List.prefix_refl _
  | answer j =>
    unfold act at hd
    dsimp only at hd
    split at hd
    · rename_i cmd hnext
      obtain rfl := Option.some.inj hd
      refine ⟨?_, ?_, fun k => ?_⟩
      · simp only [List.map_append, List.map_singleton]
        rw [answers_snoc, h.replies, ← h.server]
      · simp only [List.map_append, List.map_singleton, List.foldl_append, List.foldl_cons, List.foldl_nil]
        rw [← h.server]
      · have hk := h.clients k
        show (share k (d.log ++ [((cmd, (serve d.server cmd).1), j)])).map (·.1) <+: _
        rw [share_append]
        by_cases hjk : j = k
        · subst hjk
          obtain ⟨more, hmore⟩ := hk
          have hnext : (d.asked.getD j [])[(share j d.log).length]? = some cmd := hnext
          rw [← hmore, List.getElem?_append_right (by simp), List.length_map, Nat.sub_self] at hnext
          cases more with
          | nil => cases hnext
          | cons x more =>
            obtain rfl := Option.some.inj hnext
            rw [share_cons_own, share_nil, ← hmore]
            exact ⟨more, by simp⟩
        · rw [share_cons_other hjk, share_nil, List.append_nil]
          exact hk
    · cases hd

theorem ordered_start (serve : Serve σ) (s : σ) : Ordered serve s (start s) :=
  ⟨rfl, rfl, fun _ => List.nil_prefix⟩

theorem performed (actions : List Action) (hd : perform (act serve) (start s) actions = some d) :
    Ordered serve s d :=
  perform_keeps (fun _ a _ h ht => act_ordered h a ht) actions _ d (ordered_start serve s) hd

end Direct

end RedisProxy.System
