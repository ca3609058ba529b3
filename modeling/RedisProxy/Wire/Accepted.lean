/-
  RedisProxy.Wire.Accepted — what an accepted stream looks like, whatever its bytes.

  The request parser goes by counts. It takes the number of a line from the line's second
  byte on and never looks at the first; it passes a payload and its line end by their
  length and never looks at the line end. So `*1\r\nX1\r\nabc` is the command `a`.

  What it does keep to, over any bytes and any chunks: a count line, and for each argument
  one length line with the argument's length, its bytes, and two more (`Accepted`). Two
  kinds of calls are not among them (`Counted`): one that ends where a length line has been
  read as 0, after which the saved length is no length and another line is read; and one
  that reads a length of -1 or -2, which takes the two bytes or one of them back.

  Proved:
  - `requestLoop_walk`: what one call's loop consumes, from any position.
  - `parseRequest_reading`: one call on any chunk keeps the position, or accepts.
  - `receive_accepted`: over any chunks, what has been consumed at the first `OK`.
  - `unmarked_argument`: the stream above, against the grammar.
-/

import Mathlib.Data.List.Forall2
import RedisProxy.Wire.Incomplete

namespace RedisProxy.Wire

open Lib.Decimal

/-! ## What is consumed -/

/-- A line, and the number read from it with some memory behind it. -/
structure LineReads (line : Bytes) (v : Int) : Prop where
  ended : ∃ body, line = body ++ [LF] ∧ LF ∉ body
  value : ∃ beyond, v = parseInt32 line 1 beyond

/-- The length line read for the argument that is still to come, if there is one. -/
inductive Head : Bytes → Int → Prop
  | none : Head [] 0
  | line {line : Bytes} {v : Int} : LineReads line v → v ≠ 0 → Head line v

/-- The bytes consumed for the argument `a`. -/
inductive Argument : Bytes → Bytes → Prop
  | mk {line a ending : Bytes} : LineReads line a.length → ending.length = 2 → Argument (line ++ (a ++ ending)) a

/-- The bytes consumed for a command. -/
inductive Accepted : Bytes → Cmd → Prop
  | mk {count : Bytes} {k : Int} {parts : List Bytes} {argv : Cmd} : LineReads count k → count.head? = some 42 →
      List.Forall₂ Argument parts argv → (argv.length : Int) = max k 0 → Accepted (count ++ parts.flatten) argv

theorem LineReads.range {line : Bytes} {v : Int} (h : LineReads line v) : -2 ^ 31 ≤ v ∧ v < 2 ^ 31 := by
  obtain ⟨beyond, rfl⟩ := h.value
  exact MultibulkParser.parseInt32_range line 1 beyond

/-- A payload with two bytes behind it. -/
theorem argument_split {line d : Bytes} {v : Int} (hl : LineReads line v) (hv : 0 ≤ v) (hd : (d.length : Int) = v + 2) :
    Argument (line ++ d) (Buffer.trim d 2) := by
  have hlen : d.length - 2 = v.toNat := by omega
  have htake : ((d.take v.toNat).length : Int) = v := by
    rw [List.length_take]
    omega
  have harg : Argument (line ++ (d.take v.toNat ++ d.drop v.toNat)) (d.take v.toNat) := by
    refine .mk (by rwa [htake]) ?_
    rw [List.length_drop]
    omega
  rw [List.take_append_drop] at harg
  rw [Buffer.trim, hlen]
  exact harg

/-! ## The lengths of a call -/

/-- The lengths that the loop goes by, and whether the payload was there. -/
def MultibulkParser.metLengths (beyond : Bytes) : Nat → Int → BufferReader → List (Int × Bool)
  | 0, _, _ => []
  | n + 1, b, r =>
    match readLen beyond b r none with
    | (.ok, len, _, r) =>
      match r.read [] (readSize len) with
      | (.ok, _, r) => (len, true) :: metLengths beyond n 0 r
      | _ => [(len, false)]
    | _ => []

/-- Those of a call of `ParseRequest`, `P` with the input it finds. -/
def CmdParser.metLengths (beyond : Bytes) (P : CmdParser) : List (Int × Bool) :=
  match MultibulkParser.readLen beyond P.multibulkParser.multibulkLen ⟨P.inputb, P.inputbr⟩ none with
  | (.ok, len, _, r) =>
    MultibulkParser.metLengths beyond (len - P.multibulkParser.multibulkIndex).toNat P.multibulkParser.bulkLen r
  | _ => []

theorem CmdParser.metLengths_counted {beyond : Bytes} {P : CmdParser} {len : Int} {pb : Option Bytes} {r : BufferReader}
    (h : MultibulkParser.readLen beyond P.multibulkParser.multibulkLen ⟨P.inputb, P.inputbr⟩ none = (.ok, len, pb, r)) :
    CmdParser.metLengths beyond P =
      MultibulkParser.metLengths beyond (len - P.multibulkParser.multibulkIndex).toNat P.multibulkParser.bulkLen r := by
  simp only [CmdParser.metLengths, h]

/-- No length is -1 or -2, and the call does not end behind one of 0. -/
def Fit (lengths : List (Int × Bool)) : Prop := ∀ a ∈ lengths, a.1 ≠ -1 ∧ a.1 ≠ -2 ∧ (a.1 = 0 → a.2 = true)

instance (lengths : List (Int × Bool)) : Decidable (Fit lengths) := by unfold Fit; infer_instance

/-! ## The argument loop, over any bytes -/

namespace MultibulkParser

variable (beyond : Bytes) {pre rest s head : Bytes} {cmd : Cmd} {k b : Int} {total : Nat}

/-- How the loop leaves: it has consumed `q`, the bytes of the arguments it has appended and
    the length line of the next one. -/
inductive Walk (k : Int) (total : Nat) (s pre rest : Bytes) : Error × MultibulkParser × Cmd × BufferReader → Prop
  | mk {e : Error} {q rest' head : Bytes} {parts : List Bytes} {cmd : Cmd} {b : Int} :
      rest = q ++ rest' → s ++ q = parts.flatten ++ head → List.Forall₂ Argument parts cmd → Head head b →
      (e = .ok → head = [] ∧ cmd.length = total) → (e ≠ .ok → cmd.length < total) →
      Walk k total s pre rest (e, ⟨k, cmd.length, b⟩, cmd, .after (pre ++ q) rest')

/-- Nothing more is consumed. -/
theorem Walk.stays {e : Error} {parts : List Bytes} (hparts : List.Forall₂ Argument parts cmd) (hh : Head head b)
    (hok : e = .ok → head = [] ∧ cmd.length = total) (herr : e ≠ .ok → cmd.length < total) :
    Walk k total (parts.flatten ++ head) pre rest (e, ⟨k, cmd.length, b⟩, cmd, .after pre rest) := by
  have hw : Walk k total (parts.flatten ++ head) pre rest (e, ⟨k, cmd.length, b⟩, cmd, .after (pre ++ []) rest) :=
    .mk rfl (List.append_nil _) hparts hh hok herr
  rwa [List.append_nil] at hw

/-- What a round has consumed before. -/
theorem Walk.further {q : Bytes} {res : Error × MultibulkParser × Cmd × BufferReader}
    (h : Walk k total (s ++ q) (pre ++ q) rest res) : Walk k total s pre (q ++ rest) res := by
  cases h with
  | mk hrest hs hparts hhead hok herr =>
    rw [List.append_assoc pre]
    refine .mk (by rw [hrest, List.append_assoc]) ?_ hparts hhead hok herr
    rw [← List.append_assoc, hs]

/-- A length that is there, or that of a line; or nothing is read. -/
theorem readLen_head (rest : Bytes) (hh : Head head b) (h : pre.length < 2 ^ 31) :
    (∃ line rest' v, rest = line ++ rest' ∧ LineReads (head ++ line) v ∧
      readLen beyond b (.after pre rest) none = (.ok, v, none, .after (pre ++ line) rest')) ∨
    ∃ e, e ≠ .ok ∧ readLen beyond b (.after pre rest) none = (e, b, none, .after pre rest) := by
  cases hh with
  | none =>
    rw [readLen, if_pos rfl]
    by_cases hlf : LF ∈ rest
    · left
      obtain ⟨body, rest', rfl, hbody⟩ := List.eq_append_cons_of_mem hlf
      refine ⟨body ++ [LF], rest', parseInt32 (body ++ [LF]) 1 (rest' ++ beyond), by simp,
        ⟨⟨body, rfl, hbody⟩, ⟨_, rfl⟩⟩, ?_⟩
      rw [readInt32_line beyond 0 none h hbody]
      rfl
    · exact Or.inr (readInt32_unended beyond 0 none h hlf)
  | line hl hb =>
    left
    refine ⟨[], rest, b, rfl, by rwa [List.append_nil], ?_⟩
    rw [readLen, if_neg hb, List.append_nil]

/-- A read of as many bytes as a length says, or of none. -/
theorem read_counted {v : Int} (hv : -2 ^ 31 ≤ v ∧ v < 2 ^ 31) (h1 : v ≠ -1) (h2 : v ≠ -2)
    (h : pre.length + rest.length < 2 ^ 31) :
    (∃ d rest', rest = d ++ rest' ∧ 0 ≤ v ∧ (d.length : Int) = v + 2 ∧
      (BufferReader.after pre rest).read [] (readSize v) = (.ok, d, .after (pre ++ d) rest')) ∨
    (BufferReader.after pre rest).read [] (readSize v) = (.outOfBound, [], .after pre rest) := by
  by_cases hshort : rest.length < readSize v
  · exact Or.inr (BufferReader.read_short pre [] hshort)
  have hlow : 0 ≤ v := by
    by_contra hle
    have hbig := readSize_negative hv.1 (show v ≤ -3 by omega)
    omega
  have hhigh : v + 2 < 2 ^ 31 := by
    by_contra hge
    have hbig := readSize_wrap (show 2 ^ 31 ≤ v + 2 by omega) hv.2
    omega
  have hsize := readSize_range (show -2 ≤ v by omega) hhigh
  left
  refine ⟨rest.take (readSize v), rest.drop (readSize v), (List.take_append_drop _ _).symm, hlow, ?_, ?_⟩
  · rw [List.length_take]
    omega
  · exact BufferReader.read_some (by omega) (by omega) (by omega)

theorem metLengths_read {n : Nat} {v : Int} {pb : Option Bytes} {buf : Bytes} {r r' r'' : BufferReader}
    (hl : readLen beyond b r none = (.ok, v, pb, r')) (hr : r'.read [] (readSize v) = (.ok, buf, r'')) :
    metLengths beyond (n + 1) b r = (v, true) :: metLengths beyond n 0 r'' := by
  simp [metLengths, hl, hr]

theorem metLengths_wait {n : Nat} {v : Int} {pb : Option Bytes} {buf : Bytes} {r r' r'' : BufferReader}
    (hl : readLen beyond b r none = (.ok, v, pb, r')) (hr : r'.read [] (readSize v) = (.outOfBound, buf, r'')) :
    metLengths beyond (n + 1) b r = [(v, false)] := by
  simp [metLengths, hl, hr]

/-- The first length that the loop goes by. -/
theorem metLengths_first {n : Nat} {v : Int} {pb : Option Bytes} {r r' : BufferReader}
    (hl : readLen beyond b r none = (.ok, v, pb, r')) : ∃ whole, (v, whole) ∈ metLengths beyond (n + 1) b r := by
  rcases hr : r'.read [] (readSize v) with ⟨e, buf, r''⟩
  cases e <;> simp [metLengths, hl, hr]

/-- By induction on the rounds left: each consumes an argument's bytes, or is the last. -/
theorem requestLoop_walk (n : Nat) : ∀ {parts : List Bytes} {cmd : Cmd} {head pre rest : Bytes} {b : Int},
    List.Forall₂ Argument parts cmd → Head head b → (n = 0 → head = []) → pre.length + rest.length < 2 ^ 31 →
    Fit (metLengths beyond n b (.after pre rest)) →
    Walk k (cmd.length + n) (parts.flatten ++ head) pre rest
      (requestLoop beyond n ⟨k, cmd.length, b⟩ cmd (.after pre rest)) := by
  induction n with
  | zero =>
    intro parts cmd head pre rest b hparts hh h0 _ _
    exact .stays hparts hh (fun _ => ⟨h0 rfl, rfl⟩) fun he => absurd rfl he
  | succ n ih =>
    intro parts cmd head pre rest b hparts hh _ hlen hfit
    rcases readLen_head beyond rest hh (show pre.length < 2 ^ 31 by omega) with
      ⟨line, rest', v, rfl, hline, hl⟩ | ⟨e, he, hl⟩
    · have hlen' : (pre ++ line).length + rest'.length < 2 ^ 31 := by
        simp only [List.length_append] at hlen ⊢
        omega
      obtain ⟨whole, hfirst⟩ := metLengths_first beyond (n := n) hl
      obtain ⟨h1, h2, -⟩ := hfit _ hfirst
      refine .further ?_
      rw [List.append_assoc]
      rcases read_counted hline.range h1 h2 hlen' with ⟨d, rest'', rfl, hpos, hd, hr⟩ | hr
      · rw [requestLoop_read beyond n hl hr]
        have harg : Argument (head ++ line ++ d) (Buffer.trim d 2) := argument_split hline hpos hd
        have hparts' := List.rel_append hparts (.cons harg .nil)
        have hlen'' : (pre ++ line ++ d).length + rest''.length < 2 ^ 31 := by
          simp only [List.length_append] at hlen' ⊢
          omega
        rw [metLengths_read beyond hl hr] at hfit
        have hw := ih hparts' .none (fun _ => rfl) hlen'' fun a ha => hfit a (List.mem_cons_of_mem _ ha)
        have hs : (parts ++ [head ++ line ++ d]).flatten ++ [] = parts.flatten ++ (head ++ line) ++ d := by simp
        have hnext : past ⟨k, cmd.length, b⟩ 1 = ⟨k, (cmd ++ [Buffer.trim d 2]).length, 0⟩ := by simp [past]
        have htotal : (cmd ++ [Buffer.trim d 2]).length + n = cmd.length + (n + 1) := by
          rw [List.length_append, List.length_singleton]
          omega
        rw [hs, htotal, ← hnext] at hw
        exact hw.further
      · rw [requestLoop_wait beyond n hl hr]
        -- the call ends behind the line, so it does not read as 0
        rw [metLengths_wait beyond hl hr] at hfit
        have hne : v ≠ 0 := fun h0 => Bool.noConfusion ((hfit _ List.mem_cons_self).2.2 h0)
        exact .stays hparts (.line hline hne) (fun he => by cases he) fun _ => by omega
    · rw [requestLoop_fail beyond n he hl]
      exact .stays hparts hh (fun hok => absurd hok he) fun _ => by omega

end MultibulkParser

/-! ## One call -/

/-- Where the parser stands once it has consumed `p`. -/
inductive Reading : Bytes → CmdParser → Cmd → Prop
  | start : Reading [] .init []
  | count {w : Bytes} : w.head? = some 42 → Reading [] ⟨.multibulk, .reset, w, 0⟩ []
  | arguments {count head w : Bytes} {parts : List Bytes} {cmd : Cmd} {k b : Int} : LineReads count k →
      count.head? = some 42 → List.Forall₂ Argument parts cmd → Head head b → (cmd.length : Int) < k →
      Reading (count ++ (parts.flatten ++ head)) ⟨.multibulk, ⟨k, cmd.length, b⟩, w, 0⟩ cmd

/-- A call that finds `input` behind `p`. -/
inductive Advances (p input : Bytes) : Error × CmdParser × Cmd → Prop
  | accepts {q : Bytes} {P : CmdParser} {argv : Cmd} : input = q ++ P.inputb → P.inputbr = 0 →
      Accepted (p ++ q) argv → Advances p input (.ok, P, argv)
  | reads {e : Error} {q : Bytes} {P : CmdParser} {cmd : Cmd} : e ≠ .ok → input = q ++ P.inputb →
      Reading (p ++ q) P cmd → Advances p input (e, P, cmd)

section Call

variable {p pre rest s count c : Bytes} {k : Int} {total : Nat} {P : CmdParser} {cmd : Cmd}

/-- What the loop has walked, handed over. -/
theorem advances_walk {res : Error × MultibulkParser × Cmd × BufferReader} (hcount : LineReads count k)
    (hstar : count.head? = some 42) (htotal : (total : Int) = max k 0) (hp : p ++ pre = count ++ s)
    (hlen : pre.length + rest.length < 2 ^ 31) (hw : MultibulkParser.Walk k total s pre rest res) :
    Advances p (pre ++ rest)
      (res.1, CmdParser.handOver ⟨.multibulk, res.2.1, pre ++ rest, 0⟩ res.2.2.2, res.2.2.1) := by
  cases hw with
  | @mk e q rest' head parts cmd b hrest hs hparts hh hok herr =>
    subst hrest
    rw [List.length_append] at hlen
    have hin : pre ++ (q ++ rest') = pre ++ q ++ rest' := (List.append_assoc _ _ _).symm
    have hconsumed : p ++ (pre ++ q) = count ++ (parts.flatten ++ head) := by
      rw [← List.append_assoc, hp, List.append_assoc, hs]
    rw [CmdParser.handOver_after .multibulk _ (by rw [List.length_append]; omega) hin]
    by_cases he : e = .ok
    · obtain ⟨rfl, hlast⟩ := hok he
      subst he
      refine .accepts hin rfl ?_
      rw [hconsumed, List.append_nil]
      exact .mk hcount hstar hparts (by rw [hlast, htotal])
    · refine .reads he hin ?_
      have hmore := herr he
      rw [hconsumed]
      exact .arguments hcount hstar hparts hh (by omega)

/-- A call that looks for the count line. -/
theorem advances_count (beyond : Bytes) {type : ParseType} {input : Bytes} (h42 : input.head? = some 42)
    (ht : type = .multibulk ∨ type = .none) (hlen : input.length < 2 ^ 31)
    (hfit : Fit (CmdParser.metLengths beyond ⟨type, .reset, input, 0⟩)) :
    Advances [] input (CmdParser.parseRequest beyond ⟨type, .reset, input, 0⟩ []) := by
  have h0 : input ≠ [] := by
    rintro rfl
    cases h42
  rw [CmdParser.parseRequest_handle .reset [] (ht.imp id fun h => ⟨h, h42⟩) h0, MultibulkParser.handleRequest,
    MultibulkParser.readLen, MultibulkParser.reset, if_pos rfl]
  by_cases hlf : LF ∈ input
  · obtain ⟨body, rest, rfl, hbody⟩ := List.eq_append_cons_of_mem hlf
    rw [MultibulkParser.readInt32_line beyond 0 none (by decide) hbody, List.nil_append]
    generalize hv : parseInt32 (body ++ [LF]) 1 (rest ++ beyond) = v
    have hcount : LineReads (body ++ [LF]) v := ⟨⟨body, rfl, hbody⟩, ⟨_, hv.symm⟩⟩
    have hstar : (body ++ [LF]).head? = some 42 := by
      cases body with
      | nil => cases h42
      | cons b body => exact h42
    have hin : body ++ LF :: rest = body ++ [LF] ++ rest := by simp
    rw [hin, List.length_append] at hlen
    have hread : MultibulkParser.readLen beyond 0 (.after [] (body ++ LF :: rest)) none =
        (.ok, v, none, .after ([] ++ (body ++ [LF])) rest) := by
      rw [MultibulkParser.readLen, if_pos rfl, MultibulkParser.readInt32_line beyond 0 none (by decide) hbody, hv]
      rfl
    have hlengths : CmdParser.metLengths beyond ⟨type, .reset, body ++ LF :: rest, 0⟩ =
        MultibulkParser.metLengths beyond (v - 0).toNat 0 (.after (body ++ [LF]) rest) :=
      CmdParser.metLengths_counted hread
    rw [Int.sub_zero] at hlengths
    rw [hlengths] at hfit
    have hw := MultibulkParser.requestLoop_walk (k := v) beyond v.toNat .nil .none (fun _ => rfl) hlen hfit
    have hmax : ((([] : Cmd).length + v.toNat : Nat) : Int) = max v 0 := by
      rw [List.length_nil]
      omega
    have hadv := advances_walk (p := []) hcount hstar hmax (by simp) hlen hw
    rw [hin]
    simpa using hadv
  · rw [MultibulkParser.readInt32_part beyond 0 none (by decide) h0 hlf]
    have hstay : CmdParser.handOver ⟨.multibulk, .reset, input, 0⟩ (.after [] input) = ⟨.multibulk, .reset, input, 0⟩ :=
      CmdParser.handOver_after .multibulk .reset (by decide) rfl
    show Advances [] input (.tryAgain, CmdParser.handOver ⟨.multibulk, .reset, input, 0⟩ (.after [] input), [])
    rw [hstay]
    exact .reads (by simp) (List.nil_append _).symm (.count h42)

theorem parseRequest_reading (beyond : Bytes) (h : Reading p P cmd) (hlen : (P.inputb ++ c).length < 2 ^ 31)
    (hfit : Fit (CmdParser.metLengths beyond (P.feed c)))
    (hstar : p = [] → P.inputb ++ c ≠ [] → (P.inputb ++ c).head? = some 42) :
    Advances p (P.inputb ++ c) (CmdParser.parseRequest beyond (P.feed c) cmd) := by
  by_cases h0 : P.inputb ++ c = []
  · obtain ⟨hP, rfl⟩ := List.append_eq_nil_iff.mp h0
    have hstay : P.feed [] = P := by simp [CmdParser.feed]
    have hcall : CmdParser.parseRequest beyond P cmd = (.tryAgain, P, cmd) := by
      cases h with
      | start => exact CmdParser.parseRequest_nil .none .reset []
      | count h42 =>
        subst hP
        cases h42
      | arguments =>
        subst hP
        exact CmdParser.parseRequest_nil .multibulk _ _
    rw [hstay, hcall]
    exact .reads (by simp) (q := []) (List.append_nil _) (by rwa [List.append_nil])
  · cases h with
    | start => exact advances_count beyond (hstar rfl h0) (Or.inr rfl) hlen hfit
    | count => exact advances_count beyond (hstar rfl h0) (Or.inl rfl) hlen hfit
    | @arguments count head w parts cmd k b hcount h42 hparts hh hk =>
      have hlen' : ([] : Bytes).length + (w ++ c).length < 2 ^ 31 := by
        rw [List.length_nil, Nat.zero_add]
        exact hlen
      have hk0 : k ≠ 0 := by omega
      have hread : MultibulkParser.readLen beyond k (.after [] (w ++ c)) none = (.ok, k, none, .after [] (w ++ c)) := by
        rw [MultibulkParser.readLen, if_neg hk0]
      have hlengths : CmdParser.metLengths beyond (CmdParser.feed ⟨.multibulk, ⟨k, cmd.length, b⟩, w, 0⟩ c) =
          MultibulkParser.metLengths beyond (k - cmd.length).toNat b (.after [] (w ++ c)) :=
        CmdParser.metLengths_counted hread
      rw [hlengths] at hfit
      have hw := MultibulkParser.requestLoop_walk (k := k) beyond (k - cmd.length).toNat hparts hh
        (fun hn => by omega) hlen' hfit
      have htotal : ((cmd.length + (k - cmd.length).toNat : Nat) : Int) = max k 0 := by omega
      have hadv := advances_walk hcount h42 htotal (List.append_nil _) hlen' hw
      rw [CmdParser.feed, CmdParser.parseRequest_handle _ cmd (Or.inl rfl) h0, MultibulkParser.handleRequest,
        MultibulkParser.readLen, if_neg hk0]
      exact hadv

end Call

/-! ## Over any chunks -/

/-- One call after each chunk, the last of which is the first to return `OK`. With a chunk
    comes the memory behind the input at that call. -/
def receive : CmdParser → Cmd → List (Bytes × Bytes) → Option (CmdParser × Cmd)
  | _, _, [] => none
  | P, cmd, (c, beyond) :: cs =>
    let res := CmdParser.parseRequest beyond (P.feed c) cmd
    if res.1 = .ok then (if cs = [] then some res.2 else none)
    else receive res.2.1 res.2.2 cs

/-- Every call goes by lengths that fit. -/
def Counted : CmdParser → Cmd → List (Bytes × Bytes) → Prop
  | _, _, [] => True
  | P, cmd, (c, beyond) :: cs =>
    Fit (CmdParser.metLengths beyond (P.feed c)) ∧
      let res := CmdParser.parseRequest beyond (P.feed c) cmd
      Counted res.2.1 res.2.2 cs

section Run

variable {P P' : CmdParser} {cmd argv : Cmd}

theorem receive_reading (cs : List (Bytes × Bytes)) : ∀ {p : Bytes} {P : CmdParser} {cmd : Cmd}, Reading p P cmd →
    Room P cmd cs → Counted P cmd cs → (p ++ P.inputb ++ delivered cs).head? = some 42 →
    receive P cmd cs = some (P', argv) →
    ∃ consumed, p ++ P.inputb ++ delivered cs = consumed ++ P'.inputb ∧ P'.inputbr = 0 ∧ Accepted consumed argv := by
  induction cs with
  | nil =>
    intro p P cmd _ _ _ _ hok
    cases hok
  | cons x cs ih =>
    obtain ⟨c, beyond⟩ := x
    intro p P cmd hread hroom hcounted h42 hok
    have hstream : p ++ P.inputb ++ delivered ((c, beyond) :: cs) = p ++ (P.inputb ++ c) ++ delivered cs := by
      simp [delivered]
    rw [hstream] at h42 ⊢
    have hadv := parseRequest_reading beyond hread hroom.1 hcounted.1 fun hp h0 => by
      rw [hp, List.nil_append, List.head?_append_of_ne_nil _ h0] at h42
      exact h42
    have hroom' := hroom.2
    have hcounted' := hcounted.2
    rw [receive] at hok
    generalize CmdParser.parseRequest beyond (P.feed c) cmd = res at hadv hroom' hcounted' hok
    cases hadv with
    | @accepts q Q as hin hbr hacc =>
      rw [if_pos rfl] at hok
      split at hok
      · rename_i hlast
        obtain ⟨rfl, rfl⟩ := Prod.mk.inj (Option.some.inj hok)
        refine ⟨p ++ q, ?_, hbr, hacc⟩
        rw [hin, hlast]
        simp [delivered]
      · cases hok
    | @reads e q Q cmd' he hin hread' =>
      rw [if_neg he] at hok
      rw [hin, ← List.append_assoc p] at h42 ⊢
      exact ih hread' hroom' hcounted' h42 hok

/-- Over any bytes behind a `*` and any chunks whose calls go by lengths that fit, with fewer
    than 2^31 bytes unread at each: at the first `OK` the bytes consumed are a count line and
    the arguments' bytes, each behind one length line. -/
theorem receive_accepted (chunks : List (Bytes × Bytes)) (hroom : Room .init [] chunks)
    (hcounted : Counted .init [] chunks) (hstar : (delivered chunks).head? = some 42)
    (hok : receive .init [] chunks = some (P, argv)) :
    ∃ consumed, delivered chunks = consumed ++ P.inputb ∧ P.inputbr = 0 ∧ Accepted consumed argv :=
  receive_reading chunks .start hroom hcounted hstar hok

/-- `*2\r\nX1\r`, and then `\nabc$0\r\n\r\n`. -/
theorem receive_accepted_two :
    let chunks : List (Bytes × Bytes) :=
      [([42, 50, CR, LF, 88, 49, CR], []), ([LF, 97, 98, 99, 36, 48, CR, LF, CR, LF], [])]
    ∃ consumed, delivered chunks = consumed ++ [] ∧ 0 = 0 ∧ Accepted consumed [[97], []] :=
  receive_accepted (P := ⟨.multibulk, ⟨2, 2, 0⟩, [], 0⟩)
    [([42, 50, CR, LF, 88, 49, CR], []), ([LF, 97, 98, 99, 36, 48, CR, LF, CR, LF], [])]
    ⟨by decide, by decide, trivial⟩ ⟨by decide, by decide, trivial⟩ rfl (by decide)

end Run

/-! ## Against the grammar -/

/-- A decimal numeral of `n`. -/
structure Numeral (n : Nat) (ds : Bytes) : Prop where
  ne_nil : ds ≠ []
  digits : ∀ b ∈ ds, isDigit b = true
  value : digitsVal 0 ds = n

/-- An argument with its marker, length, and line ends. -/
inductive GrammarArg : Bytes → Bytes → Prop
  | mk {ds a : Bytes} : Numeral a.length ds → GrammarArg (36 :: ds ++ crlf ++ (a ++ crlf)) a

/-- A command by the protocol's grammar. -/
inductive Grammar : Bytes → Cmd → Prop
  | mk {ds : Bytes} {parts : List Bytes} {argv : Cmd} : Numeral argv.length ds → List.Forall₂ GrammarArg parts argv →
      Grammar (42 :: ds ++ crlf ++ parts.flatten) argv

/-- `*1\r\nX1\r\nabc` is accepted as the command `a`, with no `$` in it. -/
theorem unmarked_argument :
    ¬ ∀ (chunks : List (Bytes × Bytes)) (P : CmdParser) (argv : Cmd), Room .init [] chunks →
      (delivered chunks).head? = some 42 → receive .init [] chunks = some (P, argv) →
      ∃ consumed, delivered chunks = consumed ++ P.inputb ∧ Grammar consumed argv := by
  intro h
  obtain ⟨consumed, hin, hg⟩ := h [([42, 49, CR, LF, 88, 49, CR, LF, 97, 98, 99], [])]
    ⟨.multibulk, ⟨1, 1, 0⟩, [], 0⟩ [[97]] ⟨by decide, trivial⟩ rfl (by decide)
  cases hg with
  | mk _ hparts =>
    cases hparts with
    | cons harg _ =>
      cases harg
      have hmem := congrArg (fun s : Bytes => decide (36 ∈ s)) hin
      simp [delivered] at hmem
      revert hmem
      decide

end RedisProxy.Wire
