/-
  RedisProxy.Wire.Resume — a command delivered in two pieces.

  The first call stops in the middle and returns `TryAgain`; the second, on the same
  command and the rest of the bytes, should complete it. It does from every position
  the saved state tells apart (`parseRequest_whole`). The one it confuses is inside an
  empty argument: the saved length is 0, so the second call reads the line end that is
  left as a header. `atoi` goes on behind that line's end and finds the `$` of the next
  header, or nothing: the length read is 0 either way, and the two bytes taken for the
  empty argument's line end are the `$` and the first digit of the next header. Then the
  rest of that header is a line of its own, and its length is read from the bytes of the
  argument (`Lucky`: those spell the right number).

  Proved:
  - `resume_iff`: for every command and every cut, the second call completes the command
    exactly if the cut is not inside an empty argument or the next argument is `Lucky`.
-/

import RedisProxy.Wire.Request

namespace RedisProxy.Wire

open Lib.Decimal Lib.Pieces

variable {argv : Cmd} (beyond : Bytes)

/-- `p` makes the first call return `TryAgain`; then `q` makes the second, on the same
    command, return `OK` with `argv` and nothing left. -/
def Resumes (beyond beyond' : Bytes) (argv : Cmd) (p q : Bytes) : Prop :=
  ∀ P cmd, CmdParser.parseRequest beyond (CmdParser.init.feed p) [] = (.tryAgain, P, cmd) →
    ∃ P', CmdParser.parseRequest beyond' (P.feed q) cmd = (.ok, P', argv) ∧ P'.inputb = []

/-- The argument behind an empty one has a length of one or two digits, and reads, with
    what follows it, as that length. -/
def Lucky (beyond : Bytes) (todo : Cmd) : Prop :=
  ∃ a todo', todo = a :: todo' ∧ a.length < 100 ∧
    atoi (a ++ (crlf ++ (todo'.flatMap encodeArg ++ beyond))) = a.length

/-! ## The saved position -/

/-- The parser inside an empty argument: nothing but the unread line end says so. -/
theorem suspended_inEmpty {done todo : Cmd} {w : Bytes} {P : CmdParser} {cmd : Cmd}
    (hd : argv = done ++ [] :: todo)
    (hw : Proper w crlf) (hs : Suspended argv
      (countLine argv ++ (done.flatMap encodeArg ++ (header [] ++ w))) P cmd) :
    P = .waiting argv.length done.length 0 w ∧ cmd = done := by
  have hw' : Proper (header [] ++ w) (encodeArg []) := by
    rw [encodeArg, List.nil_append]; exact hw.append_left _
  generalize hp : countLine argv ++ (done.flatMap encodeArg ++ (header [] ++ w)) = p at hs
  cases hs with
  | count hu =>
    have := hu.length_lt
    rw [← hp, List.length_append] at this
    omega
  | @header done' todo' a u hd' hu =>
    obtain ⟨rfl, rfl, rfl, rfl⟩ :=
      split_unique (hd.symm.trans hd') (List.append_cancel_left hp) hw' (hu.append_right _)
    have := hu.length_lt
    rw [List.length_append] at this
    omega
  | @payload done' todo' a u hd' hu =>
    have hu' : Proper (header a ++ u) (encodeArg a) := hu.append_left _
    obtain ⟨rfl, rfl, rfl, h⟩ := split_unique (hd.symm.trans hd') (List.append_cancel_left hp) hw' hu'
    rw [List.append_cancel_left h]
    exact ⟨rfl, rfl⟩

/-! ## The second call inside an empty argument -/

namespace MultibulkParser

variable {pre rest a : Bytes} {m : MultibulkParser} {cmd todo : Cmd} {len : Int}

/-- The loop only adds arguments. -/
theorem requestLoop_grows (n : Nat) : ∀ (m : MultibulkParser) (cmd : Cmd) (r : BufferReader),
    cmd <+: (requestLoop beyond n m cmd r).2.2.1 := by
  induction n with
  | zero => intro m cmd r; exact List.prefix_refl cmd
  | succ n ih =>
    intro m cmd r
    unfold requestLoop
    split
    · split
      · exact (List.prefix_append cmd _).trans (ih _ _ _)
      · exact List.prefix_refl cmd
      · exact List.prefix_refl cmd
    · exact List.prefix_refl cmd

/-- An argument other than the right one stays. -/
theorem requestLoop_wrong (n : Nat) {x : Bytes} (r : BufferReader) (h : x ≠ a) :
    (requestLoop beyond n m (cmd ++ [x]) r).2.2.1 ≠ cmd ++ a :: todo := by
  intro e
  obtain ⟨t, ht⟩ := requestLoop_grows beyond n m (cmd ++ [x]) r
  rw [e, List.append_assoc, List.append_cancel_left_eq] at ht
  exact h (List.cons.inj ht).1

/-- The line end of the empty argument, read as a header. -/
theorem readLen_crlf (h : pre.length < 2 ^ 31) (rest : Bytes) :
    readLen beyond 0 (.after pre (crlf ++ rest)) none =
      (.ok, atoi (rest ++ beyond), none, .after (pre ++ crlf) rest) := by
  have hl := readInt32_line beyond 0 none h (show LF ∉ ([CR] : Bytes) by decide) rest
  rw [readLen, if_pos rfl]
  refine hl.trans ?_
  rw [parseInt32, if_neg (by decide)]
  simp only [List.cons_append, List.nil_append, List.drop_succ_cons, List.drop_zero, Option.map_none, crlf]
  rw [atoi_space _ (by decide)]

/-- How a round that takes a wrong length for argument `a` can end: not `OK`, not the
    right arguments, or not at the end. -/
structure Wrong (want : Cmd) (input : Bytes) (res : Error × MultibulkParser × Cmd × BufferReader) : Prop where
  bad : res.1 = .ok → res.2.2.1 = want → ∃ pre rest, res.2.2.2 = .after pre rest ∧ rest ≠ [] ∧
    pre ++ rest = input

theorem wrong_length {r0 : BufferReader} {p : Option Bytes}
    (hpos : pre.length + (a ++ (crlf ++ todo.flatMap encodeArg)).length < 2 ^ 31)
    (hl : readLen beyond m.bulkLen r0 none =
      (.ok, len, p, .after pre (a ++ (crlf ++ todo.flatMap encodeArg))))
    (hrange : -2 ^ 31 ≤ len ∧ len < 2 ^ 31) (hlen : len ≠ a.length) (hneg : len < 0 → a = [] → todo = []) :
    Wrong (cmd ++ a :: todo) (pre ++ (a ++ (crlf ++ todo.flatMap encodeArg)))
      (requestLoop beyond (todo.length + 1) m cmd r0) := by
  have hp : pre.length < 2 ^ 31 := by omega
  have hne : a ++ (crlf ++ todo.flatMap encodeArg) ≠ [] := by simp [crlf]
  have hsize : (a ++ (crlf ++ todo.flatMap encodeArg)).length =
      a.length + 2 + (todo.flatMap encodeArg).length := by
    simp only [List.length_append, show crlf.length = 2 from rfl]; omega
  rcases lt_or_ge len 0 with hl0 | hl0
  · rcases (by omega : len ≤ -3 ∨ len = -2 ∨ len = -1) with h3 | rfl | rfl
    · have hs := readSize_negative hrange.1 h3
      rw [requestLoop_wait beyond _ hl (BufferReader.read_short pre [] (by omega))]
      exact ⟨fun h => by cases h⟩
    · -- the size is 0, and appending 0 bytes of a buffer appends it all
      rw [requestLoop_read beyond _ hl (BufferReader.read_zero hp hne)]
      cases todo with
      | nil => exact ⟨fun _ _ => ⟨pre, _, rfl, hne, rfl⟩⟩
      | cons b todo =>
        refine ⟨fun _ e => absurd e (requestLoop_wrong beyond _ _ fun e => ?_)⟩
        have hlt := congrArg List.length e
        have := List.length_pos_iff.mpr (encodeArg_ne_nil b)
        rw [Buffer.trim, List.length_take, hsize, List.flatMap_cons, List.length_append] at hlt
        omega
    · have hr := BufferReader.read_some hp (n := 1) (by decide)
        (show 1 ≤ (a ++ (crlf ++ todo.flatMap encodeArg)).length by omega)
      rw [requestLoop_read beyond _ hl hr]
      have htrim (l : Bytes) : Buffer.trim (l.take 1) 2 = [] := by
        rw [Buffer.trim, List.take_eq_nil_iff, List.length_take]; left; omega
      rw [htrim]
      by_cases ha : a = []
      · obtain rfl := hneg hl0 ha
        subst ha
        exact ⟨fun _ _ => ⟨_, [LF], rfl, by simp, by simp [crlf]⟩⟩
      · exact ⟨fun _ e => absurd e (requestLoop_wrong beyond _ _ (Ne.symm ha))⟩
  · lift len to Nat using hl0 with k
    by_cases hk : (a ++ (crlf ++ todo.flatMap encodeArg)).length < k + 2
    · have hs := readSize_short (n := k) (by omega) hk
      rw [int32_natCast (by omega)] at hs
      rw [requestLoop_wait beyond _ hl (BufferReader.read_short pre [] hs)]
      exact ⟨fun h => by cases h⟩
    · have hr := BufferReader.read_some hp (n := k + 2) (by omega)
        (show k + 2 ≤ (a ++ (crlf ++ todo.flatMap encodeArg)).length by omega)
      rw [← readSize_of_lt (by omega)] at hr
      rw [requestLoop_read beyond _ hl hr]
      refine ⟨fun _ e => absurd e (requestLoop_wrong beyond _ _ fun e => ?_)⟩
      have hlt := congrArg List.length e
      rw [readSize_of_lt (by omega), Buffer.trim, List.length_take, List.length_take] at hlt
      omega

/-- The round meant for an empty argument takes the `$` and the first digit of the next
    header for its line end. -/
theorem requestLoop_empty {d : Byte} {ds tail : Bytes} (hd : decimal a.length = d :: ds)
    (hb : m.bulkLen = 0) (n : Nat) :
    requestLoop beyond (n + 1) m cmd (.after [] (crlf ++ (header a ++ tail))) =
      requestLoop beyond n (past m 1) (cmd ++ [[]]) (.after (crlf ++ [36, d]) (ds ++ (crlf ++ tail))) := by
  have hh : header a ++ tail = [36, d] ++ (ds ++ (crlf ++ tail)) := by
    rw [header, numLine, decimalInt_natCast, hd]; simp
  have hl := readLen_crlf beyond (show ([] : Bytes).length < 2 ^ 31 by decide) (header a ++ tail)
  have hv : atoi (header a ++ tail ++ beyond) = 0 := by
    rw [hh]; exact atoi_stop _ (by decide) (by decide) (by decide) (by decide)
  rw [hv, List.nil_append] at hl
  have hr := BufferReader.read_found (show crlf.length < 2 ^ 31 by decide) [] (s := [36, d]) (by simp)
    (ds ++ (crlf ++ tail))
  rw [← hh, show [36, d].length = readSize 0 from (by decide : 2 = readSize 0)] at hr
  exact requestLoop_read beyond n (by rw [hb]; exact hl) hr

/-- What is left of that header is a line; the number on it starts at its second byte. -/
theorem readLen_left {d : Byte} {ds : Bytes} (tail : Bytes) (h : pre.length < 2 ^ 31)
    (hd : decimal a.length = d :: ds) :
    readLen beyond 0 (.after pre (ds ++ (crlf ++ tail))) none =
      (.ok, parseInt32 (ds ++ crlf) 1 (tail ++ beyond), none, .after (pre ++ (ds ++ crlf)) tail) := by
  have hline : LF ∉ ds ++ [CR] := by
    rw [List.mem_append, not_or]
    refine ⟨fun hm => ?_, by decide⟩
    have := decimal_digits a.length LF (by rw [hd]; exact List.mem_cons_of_mem _ hm)
    cases this
  have hl := readInt32_line beyond 0 none h hline tail
  rw [readLen, if_pos rfl]
  simpa [crlf] using hl

theorem parseInt32_short {ds s : Bytes} (h : ds.length ≤ 1) : parseInt32 (ds ++ crlf) 1 s = atoi s := by
  rcases ds with _ | ⟨d, _ | ⟨d', ds⟩⟩
  · rw [parseInt32, if_neg (by decide)]
    exact atoi_space s (by decide)
  · rw [parseInt32, if_neg (by simp [crlf])]
    exact (atoi_space _ (by decide)).trans (atoi_space s (by decide))
  · simp at h

theorem parseInt32_long {d : Byte} {ds s : Bytes} (h0 : ds ≠ []) (h : ∀ b ∈ ds, isDigit b = true)
    (hv : digitsVal 0 ds < 2 ^ 31) :
    parseInt32 (d :: ds ++ crlf) 1 s = digitsVal 0 ds := by
  rw [parseInt32, if_neg (by simp [crlf])]
  simp only [crlf, List.cons_append, List.drop_succ_cons, List.drop_zero, List.append_assoc]
  exact atoi_digits h0 h hv _ (by decide)

theorem length_short {d : Byte} {ds : Bytes} (hd : decimal a.length = d :: ds) (h : a.length < 100) :
    ds.length ≤ 1 := by
  obtain ⟨e, es, he, hes⟩ := decimal_short h
  obtain ⟨rfl, rfl⟩ := List.cons.inj (hd.symm.trans he)
  exact hes

/-- The rounds left after the one that took a piece of the next header: they read that
    argument whole, or go wrong. -/
theorem requestLoop_left (cmd : Cmd) {d : Byte} {ds : Bytes} (hd : decimal a.length = d :: ds)
    (hb : m.bulkLen = 0)
    (hpos : pre.length + (ds ++ crlf ++ (a ++ (crlf ++ todo.flatMap encodeArg))).length < 2 ^ 31)
    (hbad : ¬ Lucky beyond (a :: todo)) :
    Wrong (cmd ++ a :: todo) (pre ++ (ds ++ crlf ++ (a ++ (crlf ++ todo.flatMap encodeArg))))
      (requestLoop beyond (todo.length + 1) m cmd
        (.after pre (ds ++ (crlf ++ (a ++ (crlf ++ todo.flatMap encodeArg)))))) := by
  rw [List.length_append] at hpos
  have hl := readLen_left beyond (a ++ (crlf ++ todo.flatMap encodeArg))
    (show pre.length < 2 ^ 31 by omega) hd
  rw [← hb] at hl
  rw [← List.append_assoc pre]
  have hr := parseInt32_range (ds ++ crlf) 1 (a ++ (crlf ++ todo.flatMap encodeArg) ++ beyond)
  refine wrong_length beyond (by rw [List.length_append]; omega) hl hr ?_ ?_
  · intro hv
    by_cases h : a.length < 100
    · refine hbad ⟨a, todo, rfl, h, ?_⟩
      rw [← hv, parseInt32_short (length_short hd h)]
      simp only [List.append_assoc]
    · obtain ⟨e, e', es, he, hes, hlt⟩ := decimal_long (Nat.le_of_not_lt h)
      obtain ⟨rfl, rfl⟩ := List.cons.inj (hd.symm.trans he)
      have hdig : ∀ b ∈ es, isDigit b = true := fun b hb => decimal_digits a.length b (by rw [he]; simp [hb])
      rw [parseInt32_long hes hdig (by omega)] at hv
      omega
  · rintro hneg rfl
    rw [parseInt32_short (length_short hd (by decide))] at hneg
    cases todo with
    | nil => rfl
    | cons b todo =>
      have h0 : atoi ([] ++ (crlf ++ (b :: todo).flatMap encodeArg) ++ beyond) = 0 :=
        (atoi_space _ (by decide)).trans ((atoi_space _ (by decide)).trans
          (atoi_stop _ (by decide) (by decide) (by decide) (by decide)))
      rw [h0] at hneg
      cases hneg

/-- They read it whole when it is lucky. -/
theorem requestLoop_lucky {d : Byte} {ds : Bytes} (hd : decimal a.length = d :: ds) (hb : m.bulkLen = 0)
    (hpos : pre.length + (ds ++ crlf ++ (a ++ (crlf ++ todo.flatMap encodeArg))).length < 2 ^ 31)
    (hok : Lucky beyond (a :: todo)) (n : Nat) :
    requestLoop beyond (n + 1) m cmd (.after pre (ds ++ (crlf ++ (a ++ (crlf ++ todo.flatMap encodeArg))))) =
      requestLoop beyond n (past m 1) (cmd ++ [a])
        (.after (pre ++ (ds ++ crlf) ++ (a ++ crlf)) (todo.flatMap encodeArg)) := by
  obtain ⟨_, _, h, hshort, hv⟩ := hok
  obtain ⟨rfl, rfl⟩ := List.cons.inj h
  simp only [List.length_append, show crlf.length = 2 from rfl] at hpos
  have hl := readLen_left beyond (a ++ (crlf ++ todo.flatMap encodeArg))
    (show pre.length < 2 ^ 31 by omega) hd
  rw [parseInt32_short (length_short hd hshort), List.append_assoc, List.append_assoc, hv, ← hb] at hl
  have hp : (pre ++ (ds ++ crlf)).length < 2 ^ 31 := by
    simp only [List.length_append, show crlf.length = 2 from rfl]; omega
  have hr := read_payload (a := a) hp (by omega) (todo.flatMap encodeArg)
  rw [List.append_assoc a] at hr
  rw [requestLoop_read beyond n hl hr, trim_crlf]

end MultibulkParser

/-! ## Both calls -/

theorem not_lucky_nil : ¬ Lucky beyond [] := by
  rintro ⟨a, todo, h, _⟩
  cases h

/-- Inside the last argument, empty: no line is left to read. -/
theorem resume_last {done : Cmd} (hd : argv = done ++ [[]]) :
    (CmdParser.parseRequest beyond (.waiting argv.length done.length 0 crlf) done).1 = .tryAgain := by
  have hk : argv.length = done.length + 1 := by rw [hd]; simp
  have hl := MultibulkParser.readLen_crlf beyond (show ([] : Bytes).length < 2 ^ 31 by decide) []
  rw [List.append_nil] at hl
  rw [CmdParser.waiting, CmdParser.parseRequest_handle _ _ (Or.inl rfl) crlf_ne_nil,
    MultibulkParser.handleRequest_resume beyond (by omega) hk,
    MultibulkParser.requestLoop_wait beyond 0 hl (BufferReader.read_nil _ _ _)]

section Next

variable {done todo : Cmd} {a ds : Bytes} {d : Byte}

/-- Inside an empty argument that `a` follows: what is left, as the rounds cut it. -/
theorem left_eq (todo : Cmd) (hds : decimal a.length = d :: ds) : crlf ++ (a :: todo).flatMap encodeArg =
    crlf ++ [36, d] ++ (ds ++ crlf ++ (a ++ (crlf ++ todo.flatMap encodeArg))) := by
  rw [List.flatMap_cons, encodeArg, header, numLine, decimalInt_natCast, hds]
  simp

/-- The first round is over. -/
theorem resume_next (hd : argv = done ++ [] :: a :: todo) (hds : decimal a.length = d :: ds) :
    MultibulkParser.handleRequest beyond ⟨argv.length, done.length, 0⟩ done
      (.after [] (crlf ++ (a :: todo).flatMap encodeArg)) =
      MultibulkParser.requestLoop beyond (todo.length + 1) ⟨argv.length, (done ++ [[]]).length, 0⟩
        (done ++ [[]])
        (.after (crlf ++ [36, d]) (ds ++ (crlf ++ (a ++ (crlf ++ todo.flatMap encodeArg))))) := by
  have hk : argv.length = done.length + (todo.length + 1 + 1) := by rw [hd]; simp
  have he : (a :: todo).flatMap encodeArg = header a ++ (a ++ (crlf ++ todo.flatMap encodeArg)) := by
    rw [List.flatMap_cons, encodeArg]; simp only [List.append_assoc]
  rw [MultibulkParser.handleRequest_resume beyond (by omega) hk, he,
    MultibulkParser.requestLoop_empty beyond hds rfl]
  simp [MultibulkParser.past]

theorem resume_lucky (hd : argv = done ++ [] :: a :: todo)
    (hpos : (crlf ++ (a :: todo).flatMap encodeArg).length < 2 ^ 31)
    (hok : Lucky beyond (a :: todo)) :
    CmdParser.parseRequest beyond
      (.waiting argv.length done.length 0 (crlf ++ (a :: todo).flatMap encodeArg)) done =
      (.ok, returned argv [], argv) := by
  obtain ⟨d, ds, hds⟩ := List.exists_cons_of_ne_nil (decimal_ne_nil a.length)
  have hin := left_eq todo hds
  have hd' : argv = (done ++ [[], a]) ++ todo := by rw [hd]; simp
  have hi : crlf ++ (a :: todo).flatMap encodeArg =
      crlf ++ [36, d] ++ (ds ++ crlf) ++ (a ++ crlf) ++ (todo.flatMap encodeArg ++ []) := by
    rw [hin]; simp
  rw [hin, List.length_append] at hpos
  refine returns_loop (done ++ [[], a]) hd' (Or.inl rfl) (by simp [crlf]) hi ?_ ?_
  · simp only [List.length_append] at hpos ⊢
    omega
  · rw [resume_next beyond hd hds, MultibulkParser.requestLoop_lucky beyond hds rfl (by simpa using hpos) hok]
    simp [MultibulkParser.past, Int.add_assoc]

theorem resume_unlucky (hd : argv = done ++ [] :: a :: todo)
    (hpos : (crlf ++ (a :: todo).flatMap encodeArg).length < 2 ^ 31)
    (hbad : ¬ Lucky beyond (a :: todo)) {P : CmdParser}
    (h : CmdParser.parseRequest beyond
      (.waiting argv.length done.length 0 (crlf ++ (a :: todo).flatMap encodeArg)) done =
      (.ok, P, argv)) : P.inputb ≠ [] := by
  obtain ⟨d, ds, hds⟩ := List.exists_cons_of_ne_nil (decimal_ne_nil a.length)
  have hin := left_eq todo hds
  have hpos' := hpos
  rw [hin, List.length_append] at hpos'
  have hw := MultibulkParser.requestLoop_left beyond (m := ⟨argv.length, (done ++ [[]]).length, 0⟩)
    (done ++ [[]])
    hds rfl hpos' hbad
  rw [← hin] at hw
  rw [CmdParser.waiting, CmdParser.parseRequest_handle _ _ (Or.inl rfl) (by simp [crlf]),
    resume_next beyond hd hds] at h
  generalize MultibulkParser.requestLoop _ _ _ _ _ = res at h hw
  simp only [Prod.mk.injEq] at h
  obtain ⟨h1, h2, h3⟩ := h
  obtain ⟨pre, rest, hr, hne, hi⟩ := hw.bad h1 (by rw [h3, hd]; simp)
  rw [← h2, hr, CmdParser.handOver_after _ _ _ hi.symm]
  · exact hne
  · rw [← hi, List.length_append] at hpos
    omega

end Next

/-- The second call, from inside an empty argument. -/
theorem resume_inEmpty {done todo : Cmd} (hd : argv = done ++ [] :: todo)
    (hpos : (crlf ++ todo.flatMap encodeArg).length < 2 ^ 31) :
    (∃ P', CmdParser.parseRequest beyond
      (.waiting argv.length done.length 0 (crlf ++ todo.flatMap encodeArg)) done = (.ok, P', argv) ∧
      P'.inputb = []) ↔ Lucky beyond todo := by
  cases todo with
  | nil =>
    refine iff_of_false ?_ (not_lucky_nil beyond)
    rintro ⟨P', h, _⟩
    have hlast := resume_last beyond hd
    rw [List.flatMap_nil, List.append_nil] at h
    rw [h] at hlast
    cases hlast
  | cons a todo =>
    constructor
    · rintro ⟨P', h, hleft⟩
      by_contra hbad
      exact resume_unlucky beyond hd hpos hbad h hleft
    · intro hok
      exact ⟨_, resume_lucky beyond hd hpos hok, rfl⟩

theorem unread_le {p : Bytes} {P : CmdParser} {cmd : Cmd} (hs : Suspended argv p P cmd) :
    P.inputb.length ≤ p.length := by
  cases hs with
  | count _ => exact Nat.le_refl _
  | header _ _ => simp only [CmdParser.waiting, List.length_append]; omega
  | payload _ _ => simp only [CmdParser.waiting, List.length_append]; omega

/-- The first call, on any proper prefix. -/
theorem first_call {p : Bytes} (hp : Proper p (encode argv)) (hlen : Sizes argv) (hsize : p.length < 2 ^ 31) :
    Stops (Suspended argv) (AtBoundary argv) p
      (CmdParser.parseRequest beyond (CmdParser.init.feed p) []) := by
  have hE : ∀ todo, InEmpty argv [] todo → todo = [] := by
    rintro todo ⟨done, w, _, _, h⟩
    exact absurd (List.append_eq_nil_iff.mp h.symm).1 (countLine_ne_nil argv)
  have hb : ¬ AtBoundary argv [] := not_atBoundary_of_count (proper_nil (countLine_ne_nil argv))
  exact parseRequest_part (suspended_init argv) hE hlen (by simpa [CmdParser.init] using hsize) hp fun _ => hb

/-- The first call, up to inside an empty argument. -/
theorem first_inEmpty {done todo : Cmd} {w : Bytes} (hd : argv = done ++ [] :: todo) (hw : Proper w crlf)
    (hlen : Sizes argv) (hsize : (countLine argv ++ (done.flatMap encodeArg ++ (header [] ++ w))).length < 2 ^ 31) :
    CmdParser.parseRequest beyond
      (CmdParser.init.feed (countLine argv ++ (done.flatMap encodeArg ++ (header [] ++ w)))) [] =
      (.tryAgain, .waiting argv.length done.length 0 w, done) := by
  have hw' : Proper w ([] ++ crlf) := hw
  have hst := first_call beyond (suspended_proper (.payload hd hw')) hlen hsize
  have hb := not_atBoundary_of_payload hd hw'
  have herr := hst.err.resolve_right fun e => hb (hst.boundary.mp e)
  obtain ⟨h1, h2⟩ := suspended_inEmpty hd hw hst.pos
  exact Prod.ext herr (Prod.ext h1 h2)

/-- A command cut in two: the second call completes it exactly if the cut is not inside
    an empty argument, or what follows is `Lucky`. -/
theorem resume_iff (argv : Cmd) (p q : Bytes) (hpq : encode argv = p ++ q) (beyond beyond' : Bytes)
    (hp : p.length < 2 ^ 31) (hq : q.length < 2 ^ 31)
    (hunread : ∀ P cmd, CmdParser.parseRequest beyond (CmdParser.init.feed p) [] = (.tryAgain, P, cmd) →
      (P.inputb ++ q).length < 2 ^ 31) :
    Resumes beyond beyond' argv p q ↔ ∀ todo, InEmpty argv p todo → Lucky beyond' todo := by
  have hlen : Sizes argv := sizes_of_lt (by rw [hpq, List.length_append]; omega)
  have hinside (todo : Cmd) (hE : InEmpty argv p todo) :
      Resumes beyond beyond' argv p q ↔ Lucky beyond' todo := by
    obtain ⟨done, w, hd, hw, rfl⟩ := hE
    have hleft : w ++ q = crlf ++ todo.flatMap encodeArg := by
      rw [encode_split hd, List.flatMap_cons, encodeArg] at hpq
      simp only [List.append_assoc, List.append_cancel_left_eq] at hpq
      exact hpq.symm
    have hfirst := first_inEmpty beyond hd hw hlen hp
    have hpos : (crlf ++ todo.flatMap encodeArg).length < 2 ^ 31 := hleft ▸ hunread _ _ hfirst
    rw [← resume_inEmpty beyond' hd hpos, ← hleft]
    constructor
    · intro h
      exact h _ _ hfirst
    · intro h P cmd h1
      rw [hfirst] at h1
      obtain ⟨rfl, rfl⟩ := (Prod.mk.inj (Prod.mk.inj h1).2)
      exact h
  by_cases hE : ∃ todo, InEmpty argv p todo
  · obtain ⟨todo, hE⟩ := hE
    constructor
    · intro h todo' hE'
      exact (hinside todo' hE').mp h
    · intro h
      exact (hinside todo hE).mpr (h todo hE)
  · refine iff_of_true (fun P cmd h1 => ?_) fun todo h => absurd ⟨todo, h⟩ hE
    by_cases hq : q = []
    · -- the first call has the whole command and does not return `TryAgain`
      rw [hq, List.append_nil] at hpq
      have h := parseRequest_encode (hpq ▸ hp) beyond []
      rw [List.append_nil, hpq] at h
      have h2 : CmdParser.parseRequest beyond (CmdParser.init.feed p) [] = (.ok, returned argv [], argv) := h
      rw [h2] at h1
      cases h1
    · have hst := first_call beyond (p := p) ⟨q, hq, hpq⟩ hlen hp
      have hroom := hunread P cmd h1
      rw [h1] at hst
      have hw := parseRequest_whole beyond' q [] hst.pos (fun todo h => hE ⟨todo, h⟩) hroom hpq.symm
      rw [List.append_nil] at hw
      exact ⟨_, hw, rfl⟩

/-- `SET k ""` cut after the header of its last argument. -/
def setEmpty : Cmd := [[83, 69, 84], [107], []]

def setEmptyHead : Bytes := (encode setEmpty).take ((encode setEmpty).length - 2)

/-- The rest of `SET k ""` is its last line end; the second call waits for more. -/
theorem resume_setEmpty :
    ¬ ∀ (argv : Cmd) (p q beyond beyond' : Bytes), argv ≠ [] → (∀ a ∈ argv, a.length < 2 ^ 31 - 2) →
      argv.formatRESP2 [] = p ++ q → Resumes beyond beyond' argv p q := by
  intro h
  obtain ⟨P, hP, _⟩ := h setEmpty setEmptyHead crlf [] [] (by decide) (by decide) (by decide)
    (.waiting 3 2 0 []) [[83, 69, 84], [107]] (by decide)
  have hwait : (CmdParser.parseRequest [] (.waiting 3 2 0 crlf) [[83, 69, 84], [107]]).1 =
    .tryAgain := by decide
  have hok : Error.tryAgain = .ok := hwait.symm.trans (congrArg Prod.fst hP)
  exact absurd hok (by decide)

/-- `SET k v` cut inside its first argument. -/
theorem resume_iff_set :
    Resumes [] [] [[83, 69, 84], [107], [118]] ((encode [[83, 69, 84], [107], [118]]).take 9)
      ((encode [[83, 69, 84], [107], [118]]).drop 9) ↔
      ∀ todo, InEmpty [[83, 69, 84], [107], [118]]
        ((encode [[83, 69, 84], [107], [118]]).take 9) todo → Lucky [] todo := by
  refine resume_iff _ _ _ (by decide) [] [] (by decide) (by decide) fun P cmd h => ?_
  have hfirst : CmdParser.parseRequest [] (CmdParser.init.feed ((encode [[83, 69, 84], [107], [118]]).take 9)) [] =
    (.tryAgain, .waiting 3 0 3 [83], []) := by decide
  rw [hfirst] at h
  cases h
  decide

end RedisProxy.Wire
