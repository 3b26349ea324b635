import RemoveWin.Link.Query

/-!
# Requests in a stream

A peer writes requests one behind the other, and they are read in whatever pieces the network makes
of them. This file shows that the requests come out as they were put in. The client has always
executed a first part of them; and what is in its buffer, followed by what is still to come, is
what is missing of the request it is in, followed by the rest.

The limits of the parser must not get in the way. It gives up on a line that is too long, but
measures the whole buffer, with everything in it that has been read already. What saves it is that
little is read at a time: sixteen kilobytes, on top of less than a string of thirty-two; and that a
longer string has the buffer to itself, as `readQueryFromClient` asks for no more than is missing
of it.
-/

namespace RemoveWin

/-! ### Requests as bytes -/

/-- A string with its length in front: what `addReplyBulk` writes. -/
def encodeBulk (a : Sds) : Sds := lineHeader dollar (Int64.ofNat a.length) ++ (a ++ crlf)

/-- A request: what `replicationBroadcast` writes for a command. -/
def encodeCommand (argv : List Sds) : Sds :=
  lineHeader star (Int64.ofNat argv.length) ++ argv.flatMap encodeBulk

/-- A stream of requests. -/
def encodeAll (cmds : List (List Sds)) : Sds := cmds.flatMap encodeCommand

/-- A request that is not empty, is within the limits of the parser, and is not `QUIT`. -/
structure WithinLimits (maxBulkLen : ℕ) (argv : List Sds) : Prop where
  some_arg : argv ≠ []
  count : argv.length ≤ mbulkMax
  length : ∀ a ∈ argv, a.length ≤ maxBulkLen ∧ a.length < 2 ^ 63
  not_quit : ∀ name ∈ argv.head?, ¬ EqNoCase name QueryClient.quitText

instance (maxBulkLen : ℕ) (argv : List Sds) : Decidable (WithinLimits maxBulkLen argv) :=
  decidable_of_iff (argv ≠ [] ∧ argv.length ≤ mbulkMax ∧
      (∀ a ∈ argv, a.length ≤ maxBulkLen ∧ a.length < 2 ^ 63) ∧
      ∀ name ∈ argv.head?, ¬ EqNoCase name QueryClient.quitText)
    ⟨fun h => ⟨h.1, h.2.1, h.2.2.1, h.2.2.2⟩,
      fun h => ⟨h.some_arg, h.count, h.length, h.not_quit⟩⟩

theorem toInt_ofNat_length {n : ℕ} (h : n < 2 ^ 63) : (Int64.ofNat n).toInt = n :=
  Int64.toInt_ofNat_of_lt h

theorem mem_headerLine {pfx b : Fin 256} {ll : Int64} (hpfx : pfx ≠ cr ∧ pfx ≠ 0)
    (hb : b ∈ pfx :: sdsfromlonglong ll) : b ≠ cr ∧ b ≠ 0 := by
  rcases List.mem_cons.mp hb with rfl | hb
  · exact hpfx
  · rcases Decimal.isDigit_or_minus_of_mem_ofInt hb with hdigit | rfl
    · refine ⟨?_, ?_⟩ <;> rintro rfl <;> revert hdigit <;> decide
    · decide

theorem exists_of_append_eq {x u h y : Sds} (heq : x ++ u = h ++ y) (hle : h.length ≤ x.length) :
    ∃ x', x = h ++ x' ∧ x' ++ u = y := by
  rcases List.append_eq_append_iff.mp heq with ⟨l, hl, hu⟩ | ⟨x', hx', hy⟩
  · have hlen := congrArg List.length hl
    rw [List.length_append] at hlen
    obtain rfl : l = [] := List.length_eq_zero_iff.mp (by omega)
    exact ⟨[], by rw [hl, List.append_nil, List.append_nil], hu⟩
  · exact ⟨x', hx', hy.symm⟩

theorem strchr_eq_none {p : Sds} (h : ∀ b ∈ p, b ≠ cr) : strchr p cr = none := by
  rw [strchr, List.findIdx?_eq_none_iff]
  intro b hb
  exact decide_eq_false (h b ((List.takeWhile_sublist _).subset hb))

theorem strchr_append_cons {line : Sds} (h : ∀ b ∈ line, b ≠ cr ∧ b ≠ 0) (rest : Sds) :
    strchr (line ++ cr :: rest) cr = some line.length := by
  have htake : sdsnew (line ++ cr :: rest) = line ++ cr :: sdsnew rest := by
    rw [sdsnew, List.takeWhile_append_of_pos fun b hb => decide_eq_true (h b hb).2,
      List.takeWhile_cons_of_pos (by decide)]
    rfl
  rw [strchr, htake, List.findIdx?_append, List.findIdx?_eq_none_iff.mpr fun b hb =>
    decide_eq_false (h b hb).1, List.findIdx?_cons]
  simp

/-- Looking for the end of a line in the beginning of a text: it is found once it has arrived. -/
theorem strchr_line {line p u rest : Sds} (hline : ∀ b ∈ line, b ≠ cr ∧ b ≠ 0)
    (h : p ++ u = line ++ cr :: rest) :
    strchr p cr = if p.length ≤ line.length then none else some line.length := by
  rcases List.append_eq_append_iff.mp h with ⟨l, hl, -⟩ | ⟨l, hl, hrest⟩
  · rw [if_pos (by rw [hl, List.length_append]; omega)]
    exact strchr_eq_none fun b hb => (hline b (hl ▸ List.mem_append_left l hb)).1
  · cases l with
    | nil =>
      rw [List.append_nil] at hl
      rw [if_pos (by rw [hl]), hl]
      exact strchr_eq_none fun b hb => (hline b hb).1
    | cons b l =>
      obtain ⟨rfl, -⟩ := List.cons.inj hrest
      rw [if_neg (by rw [hl, List.length_append, List.length_cons]; omega), hl]
      exact strchr_append_cons hline l

/-- What `readBulkLen` and `processMultibulkBuffer` see of a header in the beginning of a text: no
end of the line, or an end but not the byte behind it, or the whole header. -/
theorem header_cases {pfx : Fin 256} (hpfx : pfx ≠ cr ∧ pfx ≠ 0) {p u rest : Sds} {ll : Int64}
    (h : p ++ u = lineHeader pfx ll ++ rest) :
    (strchr p cr = none ∧ p.length < (lineHeader pfx ll).length) ∨
    (∃ newline, strchr p cr = some newline ∧ newline + 2 > p.length ∧
      p.length < (lineHeader pfx ll).length) ∨
    ∃ p', p = lineHeader pfx ll ++ p' ∧ p' ++ u = rest ∧
      strchr p cr = some ((lineHeader pfx ll).length - 2) := by
  have hlen : (lineHeader pfx ll).length = (pfx :: sdsfromlonglong ll).length + 2 := by
    simp [lineHeader, crlf, bytes]
  have hline : p ++ u = (pfx :: sdsfromlonglong ll) ++ cr :: (lf :: rest) := by
    rw [h, lineHeader, crlf]
    simp only [List.cons_append, List.append_assoc]
    rfl
  have hstr := strchr_line (fun b hb => mem_headerLine hpfx hb) hline
  rw [hlen]
  split at hstr
  · exact .inl ⟨hstr, by omega⟩
  · next hgt =>
    by_cases hshort : p.length < (pfx :: sdsfromlonglong ll).length + 2
    · exact .inr (.inl ⟨_, hstr, hshort, hshort⟩)
    · refine .inr (.inr ?_)
      obtain ⟨p', hp', hrest⟩ := exists_of_append_eq h (hlen ▸ not_lt.mp hshort)
      exact ⟨p', hp', hrest, by rw [hstr]; congr 1⟩

theorem length_header_le (pfx : Fin 256) (ll : Int64) : (lineHeader pfx ll).length ≤ 23 := by
  have hlen := length_sdsfromlonglong_le ll
  rw [lineHeader, crlf, bytes]
  simp only [List.length_cons, List.length_append, List.length_map, List.length_nil]
  omega

theorem string2ll_header (pfx : Fin 256) (ll : Int64) (rest : Sds) :
    string2ll (((lineHeader pfx ll ++ rest).drop 1).take ((lineHeader pfx ll).length - 2 - 1)) =
      some ll := by
  have hnum : ((lineHeader pfx ll ++ rest).drop 1).take ((lineHeader pfx ll).length - 2 - 1) =
      sdsfromlonglong ll := by
    have hlen : (lineHeader pfx ll).length - 2 - 1 = (sdsfromlonglong ll).length := by
      simp [lineHeader, crlf, bytes]
    rw [hlen, lineHeader, List.cons_append, List.drop_one, List.tail_cons, List.append_assoc,
      List.take_left']
    rfl
  rw [hnum, string2ll_sdsfromlonglong]

namespace QueryClient

variable {maxBulkLen : ℕ}

/-- What is owed of the strings that are missing: of the first only the bytes, if its length has
been read. -/
def owed : Option ℕ → List Sds → Sds
  | none, args => args.flatMap encodeBulk
  | some _, [] => []
  | some _, a :: args => (a ++ crlf) ++ args.flatMap encodeBulk

/-- The length that has been read is that of the first string. -/
def LenOk : Option ℕ → List Sds → Prop
  | none, _ => True
  | some len, args => ∃ a ∈ args.head?, a.length = len

/-- The buffer, of which a part has been read already, is not too long for a line to be looked
for; or it has nothing in it but a large string. -/
def Small (c : QueryClient) (pos : ℕ) : Prop :=
  c.querybuf.length ≤ protoInlineMaxSize ∨
    ∃ len, c.bulklen = some len ∧ protoMbulkBigArg ≤ len ∧ pos = 0 ∧ c.querybuf.length ≤ len + 2

/-- **Reading a length from a stream**: it is not there yet, or it is that of the string. -/
theorem readBulkLen_stream {c : QueryClient} {pos : ℕ} {u tail a : Sds} {args : List Sds}
    (hpos : pos ≤ c.querybuf.length) (hsmall : c.Small pos)
    (ha : a.length ≤ maxBulkLen ∧ a.length < 2 ^ 63) (hlen : LenOk c.bulklen (a :: args))
    (h : c.querybuf.drop pos ++ u = owed c.bulklen (a :: args) ++ tail) :
    (c.readBulkLen maxBulkLen pos = .wait ∧ c.bulklen = none ∧ u ≠ [] ∧
      (c.querybuf.drop pos).length ≤ 23) ∨
    ∃ q pos', c.readBulkLen maxBulkLen pos =
        .read { c with querybuf := q, bulklen := some a.length } a.length pos' ∧
      pos' ≤ q.length ∧
      q.drop pos' ++ u = owed (some a.length) (a :: args) ++ tail ∧
      Small { c with querybuf := q, bulklen := some a.length } pos' := by
  cases hbulk : c.bulklen with
  | some len =>
    rw [hbulk] at hlen h
    obtain ⟨a', ha', hlen'⟩ := hlen
    obtain rfl : a = a' := by simpa using ha'
    have hself : { c with querybuf := c.querybuf, bulklen := some a.length } = c := by
      rw [hlen', ← hbulk]
    refine .inr ⟨c.querybuf, pos, ?_, hpos, h, hself ▸ hsmall⟩
    rw [hself, readBulkLen, hbulk, hlen']
  | none =>
    have hsize : c.querybuf.length ≤ protoInlineMaxSize := by
      rcases hsmall with hsize | ⟨len, hsome, -⟩
      · exact hsize
      · rw [hbulk] at hsome
        cases hsome
    rw [hbulk] at h
    have hhead : c.querybuf.drop pos ++ u = lineHeader dollar (Int64.ofNat a.length) ++
        (owed (some a.length) (a :: args) ++ tail) := by
      rw [h, owed, owed, List.flatMap_cons, encodeBulk]
      simp only [List.append_assoc]
    have htotal := congrArg List.length hhead
    rw [List.length_append, List.length_append] at htotal
    have hu : (c.querybuf.drop pos).length < (lineHeader dollar (Int64.ofNat a.length)).length →
        u ≠ [] ∧ (c.querybuf.drop pos).length ≤ 23 := by
      intro hlt
      refine ⟨?_, hlt.le.trans (length_header_le _ _)⟩
      rintro rfl
      rw [List.length_nil] at htotal
      omega
    rw [readBulkLen, hbulk]
    rcases header_cases (by decide) hhead with ⟨hstr, hlt⟩ | ⟨newline, hstr, hshort, hlt⟩ |
      ⟨p', hp', hrest, hstr⟩
    · refine .inl ⟨?_, rfl, hu hlt⟩
      simp only [hstr]
      rw [if_neg (by omega)]
    · refine .inl ⟨?_, rfl, hu hlt⟩
      rw [List.length_drop] at hshort
      cases hget : c.querybuf[pos]? with
      | none => simp only [hstr]
      | some b =>
        simp only [hstr]
        rw [if_pos (by omega)]
    · have hheader : 2 < (lineHeader dollar (Int64.ofNat a.length)).length := by
        simp [lineHeader, crlf, bytes]
      set hlen2 := (lineHeader dollar (Int64.ofNat a.length)).length with hlen2def
      have hget : c.querybuf[pos]? = some dollar := by
        have hzero := congrArg (·[0]?) hp'
        simpa [lineHeader] using hzero
      have hplen : c.querybuf.length - pos = hlen2 + p'.length := by
        rw [← List.length_drop, hp', List.length_append]
      have hnum : string2ll ((c.querybuf.drop (pos + 1)).take (hlen2 - 2 - 1)) =
          some (Int64.ofNat a.length) := by
        rw [← List.drop_drop, hp']
        exact string2ll_header dollar _ p'
      have htoInt := toInt_ofNat_length ha.2
      have hdrop : c.querybuf.drop (pos + hlen2) = p' := by
        rw [← List.drop_drop, hp', hlen2def, List.drop_left]
      have hpos' : pos + (hlen2 - 2) + 2 = pos + hlen2 := by omega
      simp only [hstr, hget, hnum, htoInt, hpos']
      rw [if_neg (by omega), if_neg (by simp), if_neg (by
        rw [not_or, Int64.lt_iff_toInt_lt, htoInt]
        exact ⟨by simp, by omega⟩)]
      simp only [Int.toNat_natCast]
      by_cases hbig : a.length ≥ protoMbulkBigArg
      · rw [if_pos hbig]
        refine .inr ⟨_, 0, rfl, Nat.zero_le _, ?_, .inl ?_⟩
        · rw [hdrop, List.drop_zero]
          exact hrest
        · simp only [List.length_drop]
          omega
      · rw [if_neg hbig]
        refine .inr ⟨_, _, rfl, by omega, ?_, .inl hsize⟩
        rw [hdrop]
        exact hrest

/-- What is left in the buffer does not even hold the next length, or not the next string. -/
def Starved (bulklen : Option ℕ) (rest : Sds) : Prop :=
  match bulklen with
  | none => rest.length ≤ 23
  | some len => rest.length < len + 2

/-- **Reading the strings of a request from a stream**: some of them are there, and what is left of
the buffer is not enough for the next. -/
theorem bulkLoop_stream {u tail : Sds} (args : List Sds) : ∀ (c : QueryClient) (pos : ℕ),
    pos ≤ c.querybuf.length → c.multibulklen = args.length →
    c.argv.length + args.length ≤ c.slots →
    (∀ a ∈ args, a.length ≤ maxBulkLen ∧ a.length < 2 ^ 63) → LenOk c.bulklen args → c.Small pos →
    c.querybuf.drop pos ++ u = owed c.bulklen args ++ tail →
    ∃ q b pos' done left, args = done ++ left ∧
      bulkLoop maxBulkLen args.length c pos = some ({ c with
        querybuf := q, bulklen := b, argv := c.argv ++ done, multibulklen := left.length },
        pos', false) ∧
      q.drop pos' ++ u = owed b left ++ tail ∧ LenOk b left ∧
      (left = [] → b = none ∧ q.length ≤ protoInlineMaxSize) ∧
      (left ≠ [] → u ≠ [] ∧ Starved b (q.drop pos')) := by
  induction args with
  | nil =>
    intro c pos _ hmulti _ _ hlen hsmall h
    cases hbulk : c.bulklen with
    | some len =>
      rw [hbulk] at hlen
      obtain ⟨a, ha, -⟩ := hlen
      cases ha
    | none =>
      refine ⟨c.querybuf, none, pos, [], [], rfl, ?_, by rw [← hbulk, h], trivial,
        fun _ => ⟨rfl, ?_⟩, fun hne => absurd rfl hne⟩
      · have hmulti : c.multibulklen = 0 := hmulti
        rw [List.length_nil, bulkLoop, ← hbulk, List.append_nil, ← hmulti]
      · rcases hsmall with hsize | ⟨len, hsome, -⟩
        · exact hsize
        · rw [hbulk] at hsome
          cases hsome
  | cons a args ih =>
    intro c pos hpos hmulti hroom hfits hlen hsmall h
    have hstay : { c with argv := c.argv ++ [], multibulklen := (a :: args).length } = c := by
      rw [List.append_nil, ← hmulti]
    have hroom' : c.argv.length < c.slots := by
      rw [List.length_cons] at hroom
      omega
    rw [List.length_cons, bulkLoop]
    rcases readBulkLen_stream hpos hsmall (hfits a List.mem_cons_self) hlen h with
      ⟨hline, hnone, hu, hshort⟩ | ⟨q, pos₁, hline, hpos₁, hq, hsmall₁⟩
    · refine ⟨c.querybuf, c.bulklen, pos, [], a :: args, rfl, by rw [hline, hstay], h, hlen,
        by rintro ⟨⟩, fun _ => ⟨hu, ?_⟩⟩
      rw [hnone]
      exact hshort
    · rw [hline]
      simp only
      have hown : owed (some a.length) (a :: args) ++ tail =
          (a ++ crlf) ++ (owed none args ++ tail) := by
        rw [owed, owed, List.append_assoc]
      have hcrlf : (a ++ crlf).length = a.length + 2 := List.length_append
      by_cases hshort : q.length < pos₁ + (a.length + 2)
      · rw [if_pos hshort]
        refine ⟨q, some a.length, pos₁, [], a :: args, rfl, ?_, hq, ⟨a, rfl, rfl⟩, by rintro ⟨⟩,
          fun _ => ⟨?_, ?_⟩⟩
        · rw [List.append_nil, ← hmulti]
        · rintro rfl
          have htotal := congrArg List.length hq
          rw [hown, List.append_nil, List.length_append, hcrlf, List.length_drop] at htotal
          omega
        · show (q.drop pos₁).length < a.length + 2
          rw [List.length_drop]
          omega
      · rw [if_neg hshort, if_neg (not_le.mpr hroom')]
        rw [hown] at hq
        obtain ⟨q', hq', hrest⟩ := exists_of_append_eq hq (by
          rw [hcrlf, List.length_drop]
          omega)
        have htake : (q.drop pos₁).take a.length = a := by
          rw [hq', List.append_assoc, List.take_left']
          rfl
        have hargs : (c.argv ++ [a]).length + args.length ≤ c.slots := by
          rw [List.length_append, List.length_singleton]
          rw [List.length_cons] at hroom
          omega
        have hfits' : ∀ a' ∈ args, a'.length ≤ maxBulkLen ∧ a'.length < 2 ^ 63 :=
          fun a' ha' => hfits a' (List.mem_cons_of_mem a ha')
        by_cases hall : pos₁ = 0 ∧ a.length ≥ protoMbulkBigArg ∧ q.length = a.length + 2
        · -- the string is the whole buffer
          rw [if_pos hall]
          obtain ⟨rfl, -, hqlen⟩ := hall
          rw [List.drop_zero] at htake hq'
          obtain rfl : q' = [] := by
            have hlen' := congrArg List.length hq'
            rw [List.length_append, hcrlf] at hlen'
            exact List.length_eq_zero_iff.mp (by omega)
          rw [htake]
          obtain ⟨q₂, b, pos₂, done, left, hsplit, hloop, hq₂, hlen₂, hdone, hleft⟩ := ih
            { QueryClient.pushArg { c with querybuf := q, bulklen := some a.length } a args.length
              with querybuf := [] } 0 (Nat.zero_le _) rfl hargs hfits' trivial
            (.inl (Nat.zero_le _)) hrest
          refine ⟨q₂, b, pos₂, a :: done, left, by rw [hsplit, List.cons_append], ?_, hq₂, hlen₂,
            hdone, hleft⟩
          rw [hloop]
          simp only [pushArg, List.append_assoc, List.singleton_append]
        · rw [if_neg hall, htake]
          have hsize : q.length ≤ protoInlineMaxSize := by
            rcases hsmall₁ with hsize | ⟨len, hsome, hbig, hzero, hle⟩
            · exact hsize
            · obtain rfl : a.length = len := Option.some.inj hsome
              simp only at hle
              exact absurd ⟨hzero, hbig, by omega⟩ hall
          obtain ⟨q₂, b, pos₂, done, left, hsplit, hloop, hq₂, hlen₂, hdone, hleft⟩ := ih
            (QueryClient.pushArg { c with querybuf := q, bulklen := some a.length } a args.length)
            (pos₁ + (a.length + 2)) (not_lt.mp hshort) rfl hargs hfits' trivial (.inl hsize) (by
              show q.drop _ ++ u = _
              rw [← List.drop_drop, hq', ← hcrlf, List.drop_left]
              exact hrest)
          refine ⟨q₂, b, pos₂, a :: done, left, by rw [hsplit, List.cons_append], ?_, hq₂, hlen₂,
            hdone, hleft⟩
          rw [hloop]
          simp only [pushArg, List.append_assoc, List.singleton_append]

/-- What a client needs to complete the requests `rest`, given the bytes to come: it is between two
requests, or has read a part of the first. -/
inductive Awaits (c : QueryClient) (u : Sds) : List (List Sds) → Prop
  | idle {rest : List (List Sds)} (hmulti : c.multibulklen = 0) (hargv : c.argv = [])
      (hbulk : c.bulklen = none) (hreq : c.reqtype ≠ .inline)
      (h : c.querybuf ++ u = encodeAll rest) : Awaits c u rest
  | inside {args : List Sds} {rest : List (List Sds)} (hmulti : c.multibulklen = args.length)
      (hne : args ≠ []) (hslots : c.argv.length + args.length ≤ c.slots)
      (hreq : c.reqtype = .multibulk) (hlen : LenOk c.bulklen args)
      (h : c.querybuf ++ u = owed c.bulklen args ++ encodeAll rest) :
      Awaits c u ((c.argv ++ args) :: rest)

/-- Nothing was executed, and there was no error. -/
structure Quiet (c c' : QueryClient) : Prop where
  executed : c'.executed = c.executed
  errors : c'.errors = c.errors
  closeAfterReply : c'.closeAfterReply = c.closeAfterReply

/-- What a call for one request ends in, on a stream: the client waits for more, or has the first
request. -/
def Fed (c : QueryClient) (u : Sds) (rest : List (List Sds)) (r : Option (QueryClient × Bool)) :
    Prop :=
  ∃ c' ready, r = some (c', ready) ∧ Quiet c c' ∧
    (ready = false → Awaits c' u rest ∧ u ≠ [] ∧ Starved c'.bulklen c'.querybuf) ∧
    (ready = true → ∃ rest', rest = c'.argv :: rest' ∧ c'.querybuf ++ u = encodeAll rest' ∧
      c'.querybuf.length ≤ protoInlineMaxSize)

theorem fed_readArgs {c : QueryClient} {u : Sds} {pos : ℕ} {args : List Sds}
    {rest : List (List Sds)} (hpos : pos ≤ c.querybuf.length)
    (hmulti : c.multibulklen = args.length) (hne : args ≠ [])
    (hslots : c.argv.length + args.length ≤ c.slots) (hreq : c.reqtype = .multibulk)
    (hlen : LenOk c.bulklen args)
    (hfits : ∀ a ∈ args, a.length ≤ maxBulkLen ∧ a.length < 2 ^ 63) (hsmall : c.Small pos)
    (h : c.querybuf.drop pos ++ u = owed c.bulklen args ++ encodeAll rest) :
    Fed c u ((c.argv ++ args) :: rest) (c.readArgs maxBulkLen pos) := by
  obtain ⟨q, b, pos', done, left, hsplit, hloop, hq, hlen', hdone, hleft⟩ :=
    bulkLoop_stream args c pos hpos hmulti hslots hfits hlen hsmall h
  have hne' : c.multibulklen ≠ 0 := by
    rw [hmulti]
    exact (List.length_pos_iff.mpr hne).ne'
  rw [readArgs, if_neg hne', hmulti, hloop]
  refine ⟨_, _, rfl, ⟨rfl, rfl, rfl⟩, fun hready => ?_, fun hready => ?_⟩
  · have hleft' : left ≠ [] := fun h0 => of_decide_eq_false hready (h0 ▸ rfl)
    obtain ⟨hu, hstarved⟩ := hleft hleft'
    refine ⟨?_, hu, hstarved⟩
    rw [hsplit, ← List.append_assoc]
    refine .inside rfl hleft' ?_ hreq hlen' hq
    rw [hsplit] at hslots
    simp only [List.length_append] at hslots ⊢
    omega
  · have hleft' : left = [] := List.length_eq_zero_iff.mp (of_decide_eq_true hready)
    obtain ⟨rfl, hsize⟩ := hdone hleft'
    refine ⟨rest, by rw [hsplit, hleft', List.append_nil], ?_, ?_⟩
    · rw [hleft'] at hq
      exact hq
    · simp only [List.length_drop]
      omega

/-- **Reading a request from a stream.** -/
theorem fed_processMultibulkBuffer {c : QueryClient} {u : Sds} {rest : List (List Sds)}
    (hreq : c.reqtype = .multibulk) (hawaits : c.Awaits u rest) (hsmall : c.Small 0)
    (hbuf : c.querybuf ≠ []) (hfits : ∀ cmd ∈ rest, WithinLimits maxBulkLen cmd) :
    Fed c u rest (c.processMultibulkBuffer maxBulkLen) := by
  cases hawaits with
  | inside hmulti hne hslots hreq' hlen h =>
    rw [processMultibulkBuffer, if_neg (by
      rw [hmulti]
      exact (List.length_pos_iff.mpr hne).ne')]
    exact fed_readArgs (Nat.zero_le _) hmulti hne hslots hreq hlen
      (fun a ha => (hfits _ List.mem_cons_self).length a (List.mem_append_right _ ha)) hsmall
      (by rw [List.drop_zero, h])
  | idle hmulti hargv hbulk hreq' h =>
    have hsize : c.querybuf.length ≤ protoInlineMaxSize := by
      rcases hsmall with hsize | ⟨len, hsome, -⟩
      · exact hsize
      · rw [hbulk] at hsome
        cases hsome
    cases rest with
    | nil => exact absurd (List.append_eq_nil_iff.mp h).1 hbuf
    | cons cmd rest =>
      have hcmd := hfits cmd List.mem_cons_self
      have hhead : c.querybuf ++ u = lineHeader star (Int64.ofNat cmd.length) ++
          (cmd.flatMap encodeBulk ++ encodeAll rest) := by
        rw [h, encodeAll, List.flatMap_cons, encodeCommand, List.append_assoc]
        rfl
      have hwait : c.querybuf.length < (lineHeader star (Int64.ofNat cmd.length)).length →
          Fed c u (cmd :: rest) (some (c, false)) := by
        intro hlt
        refine ⟨c, false, rfl, ⟨rfl, rfl, rfl⟩, fun _ => ⟨.idle hmulti hargv hbulk hreq' h, ?_, ?_⟩,
          by rintro ⟨⟩⟩
        · rintro rfl
          have htotal := congrArg List.length hhead
          rw [List.append_nil, List.length_append] at htotal
          omega
        · rw [hbulk]
          exact hlt.le.trans (length_header_le _ _)
      rw [processMultibulkBuffer, if_pos hmulti, if_neg (by rw [hargv]; exact not_not.mpr rfl)]
      rcases header_cases (by decide) hhead with ⟨hstr, hlt⟩ | ⟨newline, hstr, hshort, hlt⟩ |
        ⟨p', hp', hrest, hstr⟩
      · simp only [hstr]
        rw [if_neg (by omega)]
        exact hwait hlt
      · simp only [hstr]
        rw [if_pos hshort]
        exact hwait hlt
      · have hlen2 : 2 < (lineHeader star (Int64.ofNat cmd.length)).length := by
          simp [lineHeader, crlf, bytes]
        have hcount : cmd.length < 2 ^ 63 := hcmd.count.trans_lt (by decide)
        have htoInt := toInt_ofNat_length hcount
        have hpos : 0 < cmd.length := List.length_pos_iff.mpr hcmd.some_arg
        have hplen : c.querybuf.length =
            (lineHeader star (Int64.ofNat cmd.length)).length + p'.length := by
          rw [hp', List.length_append]
        have hstar : c.querybuf.head? = some star := by
          rw [hp']
          rfl
        have hnum : string2ll ((c.querybuf.drop 1).take
            ((lineHeader star (Int64.ofNat cmd.length)).length - 2 - 1)) =
              some (Int64.ofNat cmd.length) := by
          rw [hp']
          exact string2ll_header star _ p'
        have hle : ¬ Int64.ofNat cmd.length ≤ 0 := by
          rw [Int64.le_iff_toInt_le, htoInt]
          simp only [Int64.toInt_zero]
          omega
        simp only [hstr, hnum, htoInt]
        rw [if_neg (by omega), if_neg (by simp [hstar]), if_neg (by have := hcmd.count; omega),
          if_neg hle]
        have hback : (lineHeader star (Int64.ofNat cmd.length)).length - 2 + 2 =
            (lineHeader star (Int64.ofNat cmd.length)).length := by omega
        simp only [Int.toNat_natCast, hback]
        set c₁ : QueryClient := { c with multibulklen := cmd.length, slots := cmd.length }
        have hargs : Fed c₁ u ((c.argv ++ cmd) :: rest) (c₁.readArgs maxBulkLen
            (lineHeader star (Int64.ofNat cmd.length)).length) := by
          refine fed_readArgs ?_ rfl hcmd.some_arg ?_ hreq ?_ hcmd.length (.inl hsize) ?_
          · show _ ≤ c.querybuf.length
            omega
          · show c.argv.length + _ ≤ _
            rw [hargv, List.length_nil, Nat.zero_add]
          · show LenOk c.bulklen cmd
            rw [hbulk]
            trivial
          · show c.querybuf.drop _ ++ u = owed c.bulklen cmd ++ encodeAll rest
            rw [hbulk, owed, hp', List.drop_left]
            exact hrest
        rw [hargv, List.nil_append] at hargs
        obtain ⟨c', ready, hr, hquiet, hmore, hdone⟩ := hargs
        exact ⟨c', ready, hr, ⟨hquiet.executed, hquiet.errors, hquiet.closeAfterReply⟩, hmore,
          hdone⟩

theorem encodeCommand_ne_nil (cmd : List Sds) : encodeCommand cmd ≠ [] := by
  rw [encodeCommand, lineHeader]
  simp

theorem head?_of_encodeAll {q u : Sds} {rest : List (List Sds)} (hq : q ≠ [])
    (h : q ++ u = encodeAll rest) : q.head? = some star := by
  obtain ⟨b, q', rfl⟩ := List.exists_cons_of_ne_nil hq
  cases rest with
  | nil => cases h
  | cons cmd rest =>
    obtain ⟨rfl, -⟩ := List.cons.inj h
    rfl

theorem awaits_setReqtype {c : QueryClient} {u : Sds} {rest : List (List Sds)}
    (hawaits : c.Awaits u rest) (hbuf : c.querybuf ≠ []) :
    c.setReqtype.reqtype = .multibulk ∧ c.setReqtype.Awaits u rest := by
  cases hawaits with
  | inside hmulti hne hslots hreq hlen h =>
    have hself : c.setReqtype = c := if_neg (by rw [hreq]; decide)
    rw [hself]
    exact ⟨hreq, .inside hmulti hne hslots hreq hlen h⟩
  | idle hmulti hargv hbulk hreq h =>
    rw [setReqtype]
    split
    · have hstar := head?_of_encodeAll hbuf h
      rw [if_pos hstar]
      exact ⟨rfl, .idle hmulti hargv hbulk (by rintro ⟨⟩) h⟩
    · next hknown =>
      have hmb : c.reqtype = .multibulk := by
        cases hc : c.reqtype with
        | unknown => exact absurd hc hknown
        | inline => exact absurd hc hreq
        | multibulk => rfl
      exact ⟨hmb, .idle hmulti hargv hbulk hreq h⟩

theorem owed_ne_nil {args : List Sds} (hne : args ≠ []) (b : Option ℕ) : owed b args ≠ [] := by
  obtain ⟨a, args, rfl⟩ := List.exists_cons_of_ne_nil hne
  cases b <;> simp [owed, encodeBulk, lineHeader, crlf, bytes]

theorem length_lt_of_awaits {c : QueryClient} {u q : Sds} {cmd : List Sds}
    {rest : List (List Sds)} (hawaits : c.Awaits u (cmd :: rest)) (hq : q ++ u = encodeAll rest) :
    q.length < c.querybuf.length := by
  have hlen := congrArg List.length hq
  rw [List.length_append] at hlen
  generalize hl : cmd :: rest = l at hawaits
  cases hawaits with
  | idle _ _ _ _ h =>
    have htotal := congrArg List.length h
    have hpos := List.length_pos_iff.mpr (encodeCommand_ne_nil cmd)
    rw [← hl, encodeAll, List.flatMap_cons, List.length_append, List.length_append] at htotal
    rw [encodeAll] at hlen
    omega
  | inside _ hne _ _ _ h =>
    obtain ⟨-, rfl⟩ := List.cons.inj hl
    have htotal := congrArg List.length h
    have hpos := List.length_pos_iff.mpr (owed_ne_nil hne c.bulklen)
    rw [List.length_append, List.length_append] at htotal
    omega

theorem eq_nil_of_encodeAll {cmds : List (List Sds)} (h : encodeAll cmds = []) : cmds = [] := by
  cases cmds with
  | nil => rfl
  | cons cmd cmds => exact absurd (List.append_eq_nil_iff.mp h).1 (encodeCommand_ne_nil cmd)

theorem eq_nil_of_awaits {c : QueryClient} {rest : List (List Sds)} (hawaits : c.Awaits [] rest)
    (hbuf : c.querybuf = []) : rest = [] := by
  cases hawaits with
  | idle _ _ _ _ h =>
    rw [hbuf] at h
    exact eq_nil_of_encodeAll h.symm
  | inside _ hne _ _ _ h =>
    rw [hbuf] at h
    exact absurd (List.append_eq_nil_iff.mp h.symm).1 (owed_ne_nil hne _)

/-- What a client that was given a part of a stream has done: executed some of the requests. If
everything has arrived, these are all. -/
def Follows (c : QueryClient) (u : Sds) (rest : List (List Sds)) (c' : QueryClient) : Prop :=
  ∃ done rest', rest = done ++ rest' ∧ c'.executed = c.executed ++ done ∧ c'.errors = c.errors ∧
    c'.closeAfterReply = false ∧ c'.Awaits u rest' ∧ Starved c'.bulklen c'.querybuf ∧
    (u = [] → rest' = [])

/-- **The loop over the requests of a stream.** -/
theorem follows_inputLoop (rounds : ℕ) : ∀ {c : QueryClient} {u : Sds} {rest : List (List Sds)},
    c.querybuf.length ≤ rounds → c.closeAfterReply = false → c.Awaits u rest → c.Small 0 →
    (∀ cmd ∈ rest, WithinLimits maxBulkLen cmd) →
    ∃ c', c.inputLoop maxBulkLen rounds = some c' ∧ c.Follows u rest c' := by
  have hstop : ∀ {c : QueryClient} {u : Sds} {rest : List (List Sds)}, c.querybuf = [] →
      c.closeAfterReply = false → c.Awaits u rest → c.Follows u rest c := by
    intro c u rest hbuf hopen hawaits
    refine ⟨[], rest, rfl, (List.append_nil _).symm, rfl, hopen, hawaits, ?_, ?_⟩
    · rw [hbuf]
      cases c.bulklen with
      | none => exact Nat.zero_le _
      | some len => exact Nat.succ_pos _
    · rintro rfl
      exact eq_nil_of_awaits hawaits hbuf
  induction rounds with
  | zero =>
    intro c u rest hlen hopen hawaits _ _
    have hbuf : c.querybuf = [] := List.length_eq_zero_iff.mp (by omega)
    exact ⟨c, if_pos hbuf, hstop hbuf hopen hawaits⟩
  | succ rounds ih =>
    intro c u rest hlen hopen hawaits hsmall hfits
    rw [inputLoop]
    by_cases hbuf : c.querybuf = []
    · rw [if_pos (.inl hbuf)]
      exact ⟨c, rfl, hstop hbuf hopen hawaits⟩
    · rw [if_neg (by simp [hbuf, hopen])]
      obtain ⟨hreq, hawaits'⟩ := awaits_setReqtype hawaits hbuf
      have hquiet : Quiet c c.setReqtype ∧ c.setReqtype.querybuf = c.querybuf ∧
          c.setReqtype.bulklen = c.bulklen := by
        rw [setReqtype]
        split <;> exact ⟨⟨rfl, rfl, rfl⟩, rfl, rfl⟩
      obtain ⟨hquiet, hbuf', hbulk'⟩ := hquiet
      have hfed : Fed c.setReqtype u rest (c.setReqtype.processMultibulkBuffer maxBulkLen) :=
        fed_processMultibulkBuffer hreq hawaits' (by rwa [Small, hbuf', hbulk']) (by rwa [hbuf'])
          hfits
      obtain ⟨c', ready, hr, hquiet', hwait, hready⟩ := hfed
      rw [processBuffer, hreq, hr]
      have hopen' : c'.closeAfterReply = false :=
        (hquiet'.closeAfterReply.trans hquiet.closeAfterReply).trans hopen
      have hexec : c'.executed = c.executed := hquiet'.executed.trans hquiet.executed
      have herrors : c'.errors = c.errors := hquiet'.errors.trans hquiet.errors
      cases ready with
      | false =>
        obtain ⟨hawaits₁, hu, hstarved⟩ := hwait rfl
        exact ⟨c', rfl, [], rest, rfl, by rw [hexec, List.append_nil], herrors, hopen', hawaits₁,
          hstarved, fun h0 => absurd h0 hu⟩
      | true =>
        obtain ⟨rest', rfl, hrest', hsize⟩ := hready rfl
        have hcmd := hfits c'.argv List.mem_cons_self
        obtain ⟨name, args, hargv⟩ := List.exists_cons_of_ne_nil hcmd.some_arg
        have hrun : c'.processCommand =
            { c' with executed := c'.executed ++ [c'.argv] }.resetClient := by
          rw [processCommand, hargv]
          exact if_neg (hcmd.not_quit name (by rw [hargv]; rfl))
        have hless := length_lt_of_awaits hawaits hrest'
        obtain ⟨c₂, hloop, done, rest₂, hsplit, hexec₂, herrors₂, hopen₂, hawaits₂, hstarved₂,
          hend⟩ := @ih c'.processCommand u rest'
          (by rw [hrun]; exact Nat.le_of_lt_succ (hless.trans_le hlen)) (by rw [hrun]; exact hopen')
          (by rw [hrun]; exact .idle rfl rfl rfl (by rintro ⟨⟩) hrest')
          (by rw [hrun]; exact .inl hsize) fun cmd hmem => hfits cmd (List.mem_cons_of_mem _ hmem)
        rw [hrun] at hexec₂ herrors₂
        refine ⟨c₂, hloop, c'.argv :: done, rest₂, by rw [hsplit, List.cons_append], ?_,
          herrors₂.trans herrors, hopen₂, hawaits₂, hstarved₂, hend⟩
        rw [hexec₂]
        show (c'.executed ++ [c'.argv]) ++ done = _
        rw [hexec, List.append_assoc, List.singleton_append]

theorem small_append {c : QueryClient} {u bs : Sds} {rest : List (List Sds)}
    (hawaits : c.Awaits u rest) (hstarved : Starved c.bulklen c.querybuf)
    (hread : bs.length ≤ c.readlen) : Small { c with querybuf := c.querybuf ++ bs } 0 := by
  rw [readlen] at hread
  rw [Small]
  simp only [List.length_append]
  cases hbulk : c.bulklen with
  | none =>
    rw [hbulk] at hread hstarved
    have hstarved : c.querybuf.length ≤ 23 := hstarved
    have hread : bs.length ≤ 1024 * 16 := hread
    exact .inl (show _ ≤ 1024 * 64 by omega)
  | some len =>
    rw [hbulk] at hread hstarved
    have hstarved : c.querybuf.length < len + 2 := hstarved
    cases hawaits with
    | idle _ _ hnone _ _ =>
      rw [hbulk] at hnone
      cases hnone
    | inside hmulti hne _ hreq _ _ =>
      have hmulti' : c.multibulklen ≠ 0 := by
        rw [hmulti]
        exact (List.length_pos_iff.mpr hne).ne'
      by_cases hbig : protoMbulkBigArg ≤ len
      · simp only [hreq, hmulti', ne_eq, not_false_eq_true, true_and, ge_iff_le, hbig,
          if_true] at hread
        exact .inr ⟨len, rfl, hbig, trivial, by omega⟩
      · simp only [ge_iff_le, hbig, and_false, if_false] at hread
        have hread : bs.length ≤ 1024 * 16 := hread
        have hbig : ¬ 1024 * 32 ≤ len := hbig
        exact .inl (show _ ≤ 1024 * 64 by omega)

theorem awaits_append {c : QueryClient} {bs u : Sds} {rest : List (List Sds)}
    (h : c.Awaits (bs ++ u) rest) : Awaits { c with querybuf := c.querybuf ++ bs } u rest := by
  cases h with
  | idle hmulti hargv hbulk hreq h =>
    exact .idle hmulti hargv hbulk hreq (by rw [List.append_assoc, h])
  | @inside args rest hmulti hne hslots hreq hlen h =>
    exact .inside (c := { c with querybuf := c.querybuf ++ bs }) hmulti hne hslots hreq hlen
      (by rw [List.append_assoc, h])

theorem follows_receive {c : QueryClient} {bs u : Sds} {rest : List (List Sds)}
    (hawaits : c.Awaits (bs ++ u) rest) (hstarved : Starved c.bulklen c.querybuf)
    (hopen : c.closeAfterReply = false) (hread : bs.length ≤ c.readlen)
    (hfits : ∀ cmd ∈ rest, WithinLimits maxBulkLen cmd) :
    ∃ c', c.receive maxBulkLen bs = some c' ∧ c.Follows u rest c' :=
  follows_inputLoop _ le_rfl hopen (awaits_append hawaits) (small_append hawaits hstarved hread)
    hfits

variable (maxBulkLen) in
/-- Each read gets at most as many bytes as it asks for. -/
def Paced : QueryClient → List Sds → Prop
  | _, [] => True
  | c, bs :: bss => bs.length ≤ c.readlen ∧ ∀ c', c.receive maxBulkLen bs = some c' → c'.Paced bss

theorem follows_receiveAll (bss : List Sds) : ∀ {c : QueryClient} {u : Sds}
    {rest : List (List Sds)}, c.Awaits (bss.flatten ++ u) rest → Starved c.bulklen c.querybuf →
    c.closeAfterReply = false → c.Paced maxBulkLen bss →
    (∀ cmd ∈ rest, WithinLimits maxBulkLen cmd) →
    (bss = [] → u = [] → rest = []) →
    ∃ c', c.receiveAll maxBulkLen bss = some c' ∧ c.Follows u rest c' := by
  induction bss with
  | nil =>
    intro c u rest hawaits hstarved hopen _ _ hend
    exact ⟨c, rfl, [], rest, rfl, (List.append_nil _).symm, rfl, hopen, hawaits, hstarved,
      hend rfl⟩
  | cons bs bss ih =>
    intro c u rest hawaits hstarved hopen hpaced hfits _
    rw [List.flatten_cons, List.append_assoc] at hawaits
    obtain ⟨c₁, hc₁, done, rest₁, rfl, hexec, herrors, hopen₁, hawaits₁, hstarved₁, hend₁⟩ :=
      follows_receive hawaits hstarved hopen hpaced.1 hfits
    obtain ⟨c₂, hc₂, done', rest₂, rfl, hexec₂, herrors₂, hopen₂, hawaits₂, hstarved₂, hend₂⟩ :=
      ih hawaits₁ hstarved₁ hopen₁ (hpaced.2 c₁ hc₁)
        (fun cmd hcmd => hfits cmd (List.mem_append_right done hcmd)) (by
          rintro rfl rfl
          exact hend₁ rfl)
    exact ⟨c₂, by rw [receiveAll, hc₁, Option.bind_some, hc₂], done ++ done', rest₂,
      by rw [List.append_assoc], by rw [hexec₂, hexec, List.append_assoc],
      herrors₂.trans herrors, hopen₂, hawaits₂, hstarved₂, hend₂⟩

end QueryClient

end RemoveWin
