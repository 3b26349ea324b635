import RemoveWin.Link.Inline
import RemoveWin.Link.Output
import RemoveWin.Peers.Replicate

/-!
# Reading requests

A client's requests arrive in pieces. `readQueryFromClient` appends a piece to the query buffer and
`processInputBuffer` takes from it what is complete (`networking.c`). A request that starts with a
star is a list of strings, each with its length in front; anything else is a line of words, split
by `sdssplitargs` (`sds.c`). What has been taken of an unfinished request is kept in the client:
how many strings are missing, the length of the next one if it has been read, and the strings there
are, in an array of the announced size.

The parser trusts itself at four places. It asserts that nothing is left of the last request when
it reads a count, that the count starts with a star, and that some string is missing; and it writes
to the array without a check. A failure of any of these is no result here. So is a loop that does
not end: `processInputBuffer` runs as long as there is input, and takes a byte each time.

What a command does is not part of this file. The commands are noted down in the order in which
they are executed; `QUIT` is the one that the parser depends on. Clients are neither paused nor
blocked.
-/

namespace RemoveWin

/-! ### Errors -/

/-- The ways in which a request can be malformed. -/
inductive ProtocolError where
  | tooBigInline
  | unbalancedQuotes
  | tooBigMbulkCount
  | invalidMbulkLength
  | tooBigBulkCount
  | expectedDollar (got : Fin 256)
  | invalidBulkLength
  deriving DecidableEq

/-! ### The client -/

/-- `reqtype`. -/
inductive ReqType where
  | unknown
  | inline
  | multibulk
  deriving DecidableEq

/-- The input side of a client. -/
structure QueryClient where
  querybuf : Sds
  reqtype : ReqType
  /-- The number of strings that are missing. -/
  multibulklen : ℕ
  /-- The length of the next string, `none` for -1. -/
  bulklen : Option ℕ
  /-- The first `argc` entries of `argv`. -/
  argv : List Sds
  /-- The number of entries `argv` has room for. -/
  slots : ℕ
  /-- `CLIENT_CLOSE_AFTER_REPLY`. -/
  closeAfterReply : Bool
  /-- The errors that were sent. -/
  errors : List ProtocolError
  /-- The commands that were executed. -/
  executed : List (List Sds)
  deriving DecidableEq

/-- `PROTO_INLINE_MAX_SIZE`. -/
def protoInlineMaxSize : ℕ := 1024 * 64

/-- `PROTO_MBULK_BIG_ARG`. -/
def protoMbulkBigArg : ℕ := 1024 * 32

/-- `PROTO_IOBUF_LEN`. -/
def protoIobufLen : ℕ := 1024 * 16

/-- The limit on the number of strings of a request. -/
def mbulkMax : ℕ := 1024 * 1024

/-- `strchr`, as an offset. -/
def strchr (s : Sds) (b : Fin 256) : Option ℕ := (sdsnew s).findIdx? (· = b)

/-- `'\r'`. -/
def cr : Fin 256 := ⟨13, by decide⟩

/-- `'\n'`. -/
def lf : Fin 256 := ⟨10, by decide⟩

namespace QueryClient

/-- `createClient`, for the input side. -/
def create : QueryClient := ⟨[], .unknown, 0, none, [], 0, false, [], []⟩

/-- `resetClient`. The array stays allocated. -/
def resetClient (c : QueryClient) : QueryClient :=
  { c with argv := [], reqtype := .unknown, multibulklen := 0, bulklen := none }

/-- An error reply and `setProtocolError`. -/
def setProtocolError (c : QueryClient) (e : ProtocolError) (pos : ℕ) : QueryClient :=
  { c with
    closeAfterReply := true
    errors := c.errors ++ [e]
    querybuf := c.querybuf.drop pos }

/-- `processInlineBuffer`: the client, and whether a command is ready. Two bytes are dropped behind
the line, whether it ends in two or in one. -/
def processInlineBuffer (c : QueryClient) : QueryClient × Bool :=
  match strchr c.querybuf lf with
  | none =>
    if c.querybuf.length > protoInlineMaxSize then (c.setProtocolError .tooBigInline 0, false)
    else (c, false)
  | some newline =>
    let querylen := if newline ≠ 0 ∧ c.querybuf[newline - 1]? = some cr then newline - 1
      else newline
    match sdssplitargs (c.querybuf.take querylen) with
    | none => (c.setProtocolError .unbalancedQuotes 0, false)
    | some argv =>
      ({ c with
          querybuf := c.querybuf.drop (querylen + 2)
          slots := if argv.length ≠ 0 then argv.length else c.slots
          argv := argv.filter (· ≠ []) }, true)

/-- What reading a line with a length can lead to. -/
inductive Line where
  | wait
  | fail (e : ProtocolError) (pos : ℕ)
  | read (c : QueryClient) (bulklen pos : ℕ)

variable (maxBulkLen : ℕ)

/-- The first part of the loop of `processMultibulkBuffer`: read the length of the next string, if
it is not known. If it is large, the buffer is cut to begin with the string. -/
def readBulkLen (c : QueryClient) (pos : ℕ) : Line :=
  match c.bulklen with
  | some len => .read c len pos
  | none =>
    match strchr (c.querybuf.drop pos) cr, c.querybuf[pos]? with
    | none, _ =>
      if c.querybuf.length > protoInlineMaxSize then .fail .tooBigBulkCount 0 else .wait
    | some _, none => .wait
    | some newline, some b =>
      if pos + newline + 2 > c.querybuf.length then .wait
      else if b ≠ dollar then .fail (.expectedDollar b) pos
      else
        match string2ll ((c.querybuf.drop (pos + 1)).take (newline - 1)) with
        | none => .fail .invalidBulkLength pos
        | some ll =>
          if ll < 0 ∨ ll.toInt > maxBulkLen then .fail .invalidBulkLength pos
          else
            let len := ll.toInt.toNat
            if len ≥ protoMbulkBigArg then
              .read { c with querybuf := c.querybuf.drop (pos + newline + 2), bulklen := some len }
                len 0
            else .read { c with bulklen := some len } len (pos + newline + 2)

/-- Put the next string into `argv`. -/
def pushArg (c : QueryClient) (arg : Sds) (multibulklen : ℕ) : QueryClient :=
  { c with argv := c.argv ++ [arg], bulklen := none, multibulklen := multibulklen }

/-- The loop of `processMultibulkBuffer` over the strings that are missing: the client, the place
in the buffer, and whether there was an error. A string that fills the buffer is the buffer. -/
def bulkLoop : ℕ → QueryClient → ℕ → Option (QueryClient × ℕ × Bool)
  | 0, c, pos => some (c, pos, false)
  | missing + 1, c, pos =>
    match c.readBulkLen maxBulkLen pos with
    | .wait => some (c, pos, false)
    | .fail e start => some (c.setProtocolError e start, 0, true)
    | .read c len pos =>
      if c.querybuf.length < pos + (len + 2) then some (c, pos, false)
      else if c.argv.length ≥ c.slots then none
      else if pos = 0 ∧ len ≥ protoMbulkBigArg ∧ c.querybuf.length = len + 2 then
        bulkLoop missing { c.pushArg (c.querybuf.take len) missing with querybuf := [] } 0
      else
        bulkLoop missing (c.pushArg ((c.querybuf.drop pos).take len) missing) (pos + (len + 2))

/-- The end of `processMultibulkBuffer`: trim the buffer, and see whether the request is
complete. -/
def readArgs (c : QueryClient) (pos : ℕ) : Option (QueryClient × Bool) :=
  if c.multibulklen = 0 then none
  else
    match bulkLoop maxBulkLen c.multibulklen c pos with
    | none => none
    | some (c, _, true) => some (c, false)
    | some (c, pos, false) =>
      some ({ c with querybuf := c.querybuf.drop pos }, decide (c.multibulklen = 0))

/-- `processMultibulkBuffer`: the client, and whether a command is ready. -/
def processMultibulkBuffer (c : QueryClient) : Option (QueryClient × Bool) :=
  if c.multibulklen = 0 then
    if c.argv.length ≠ 0 then none
    else
      match strchr c.querybuf cr with
      | none =>
        if c.querybuf.length > protoInlineMaxSize then
          some (c.setProtocolError .tooBigMbulkCount 0, false)
        else some (c, false)
      | some newline =>
        if newline + 2 > c.querybuf.length then some (c, false)
        else if c.querybuf.head? ≠ some star then none
        else
          match string2ll ((c.querybuf.drop 1).take (newline - 1)) with
          | none => some (c.setProtocolError .invalidMbulkLength 0, false)
          | some ll =>
            if ll.toInt > mbulkMax then some (c.setProtocolError .invalidMbulkLength 0, false)
            else if ll ≤ 0 then some ({ c with querybuf := c.querybuf.drop (newline + 2) }, true)
            else
              { c with multibulklen := ll.toInt.toNat, slots := ll.toInt.toNat }.readArgs
                maxBulkLen (newline + 2)
  else c.readArgs maxBulkLen 0

/-- `"quit"`. -/
def quitText : Sds := bytes [113, 117, 105, 116]

/-- `processCommand` as far as the parser depends on it, and `resetClient` behind it. `QUIT` leaves
the client as it is, to be closed. -/
def processCommand (c : QueryClient) : QueryClient :=
  match c.argv with
  | [] => c.resetClient
  | name :: _ =>
    if EqNoCase name quitText then { c with closeAfterReply := true }
    else { c with executed := c.executed ++ [c.argv] }.resetClient

/-- Determine the type of a request. -/
def setReqtype (c : QueryClient) : QueryClient :=
  if c.reqtype = .unknown then
    { c with reqtype := if c.querybuf.head? = some star then .multibulk else .inline }
  else c

/-- Read a request of either type. -/
def processBuffer (c : QueryClient) : Option (QueryClient × Bool) :=
  match c.reqtype with
  | .inline => some c.processInlineBuffer
  | _ => c.processMultibulkBuffer maxBulkLen

/-- The loop of `processInputBuffer`, for a number of rounds: no result if there is input left
after that. -/
def inputLoop : ℕ → QueryClient → Option QueryClient
  | 0, c => if c.querybuf = [] then some c else none
  | rounds + 1, c =>
    if c.querybuf = [] ∨ c.closeAfterReply then some c
    else
      match c.setReqtype.processBuffer maxBulkLen with
      | none => none
      | some (c, false) => some c
      | some (c, true) => inputLoop rounds c.processCommand

/-- `processInputBuffer`. -/
def processInputBuffer (c : QueryClient) : Option QueryClient :=
  c.inputLoop maxBulkLen c.querybuf.length

/-- The number of bytes that `readQueryFromClient` asks for: what is missing of a large string, so
that it ends where the buffer ends. -/
def readlen (c : QueryClient) : ℕ :=
  match c.bulklen with
  | some len =>
    if c.reqtype = .multibulk ∧ c.multibulklen ≠ 0 ∧ len ≥ protoMbulkBigArg then
      min protoIobufLen (len + 2 - c.querybuf.length)
    else protoIobufLen
  | none => protoIobufLen

/-- `readQueryFromClient`, when the socket has some bytes. -/
def receive (c : QueryClient) (bs : Sds) : Option QueryClient :=
  processInputBuffer maxBulkLen { c with querybuf := c.querybuf ++ bs }

/-- A number of reads. -/
def receiveAll (c : QueryClient) : List Sds → Option QueryClient
  | [] => some c
  | bs :: bss => (c.receive maxBulkLen bs).bind fun c => c.receiveAll bss

/-! ### Whatever arrives -/

/-- A client that reads on. Between requests nothing is left of the last one; within one, the array
has room for what is missing. -/
structure Reading (c : QueryClient) : Prop where
  fresh : c.multibulklen = 0 → c.argv = []
  room : c.multibulklen ≠ 0 → c.argv.length + c.multibulklen = c.slots ∧ c.slots ≤ mbulkMax
  multi : c.multibulklen ≠ 0 → c.reqtype = .multibulk
  starred : c.multibulklen = 0 → c.reqtype = .multibulk → c.querybuf.head? = some star
  clean : c.errors = []

/-- The client reads on, or it is to be closed, after one error at most. -/
def Sane (c : QueryClient) : Prop :=
  if c.closeAfterReply then c.errors.length ≤ 1 else c.Reading

theorem reading_of_sane {c : QueryClient} (h : c.Sane) (hopen : c.closeAfterReply = false) :
    c.Reading := by
  rwa [Sane, hopen] at h

theorem sane_of_reading {c : QueryClient} (h : c.Reading) : c.Sane := by
  rw [Sane]
  split
  · rw [h.clean]
    exact Nat.zero_le 1
  · exact h

theorem sane_setProtocolError {c : QueryClient} (h : c.errors = []) (e : ProtocolError) (pos : ℕ) :
    (c.setProtocolError e pos).Sane := by
  show (c.errors ++ [e]).length ≤ 1
  rw [h]
  rfl

theorem reading_resetClient {c : QueryClient} (h : c.errors = []) : c.resetClient.Reading :=
  ⟨fun _ => rfl, fun hne => absurd rfl hne, fun hne => absurd rfl hne, (by rintro - ⟨⟩), h⟩

theorem sane_processCommand {c : QueryClient} (h : c.errors = []) : c.processCommand.Sane := by
  rw [processCommand]
  split
  · exact sane_of_reading (reading_resetClient h)
  · split
    · show c.errors.length ≤ 1
      rw [h]
      exact Nat.zero_le 1
    · exact sane_of_reading (reading_resetClient h)

theorem reading_setReqtype {c : QueryClient} (h : c.Reading) : c.setReqtype.Reading := by
  rw [setReqtype]
  split
  · next hunknown =>
    refine ⟨h.fresh, h.room, fun hne => ?_, fun _ hmulti => ?_, h.clean⟩
    · rw [h.multi hne] at hunknown
      cases hunknown
    · by_contra hne
      rw [if_neg hne] at hmulti
      cases hmulti
  · exact h

variable {maxBulkLen}

/-- What reading a length changes: the buffer may be cut, and the place in it moves on. -/
theorem readBulkLen_read {c c' : QueryClient} {pos len pos' : ℕ} (hpos : pos ≤ c.querybuf.length)
    (h : c.readBulkLen maxBulkLen pos = .read c' len pos') :
    ∃ q, c' = { c with querybuf := q, bulklen := some len } ∧ pos' ≤ q.length ∧
      q.length - pos' ≤ c.querybuf.length - pos := by
  rw [readBulkLen] at h
  split at h
  · next len' hlen =>
    cases h
    exact ⟨c.querybuf, by rw [← hlen], hpos, le_rfl⟩
  · split at h
    · split at h <;> cases h
    · cases h
    · next newline b _ _ =>
      simp only at h
      split_ifs at h with hshort hdollar
      split at h
      · cases h
      · next ll _ =>
        split_ifs at h with hrange hbig
        · cases h
          refine ⟨_, rfl, Nat.zero_le _, ?_⟩
          rw [List.length_drop]
          omega
        · cases h
          exact ⟨_, rfl, by omega, by omega⟩

/-- **The loop over the strings does not write beyond the array.** Each string it reads takes two
bytes at least. -/
theorem bulkLoop_total (missing : ℕ) : ∀ (c : QueryClient) (pos : ℕ),
    c.argv.length + missing ≤ c.slots → c.multibulklen = missing → pos ≤ c.querybuf.length →
    c.errors = [] →
    ∃ c' pos' e, bulkLoop maxBulkLen missing c pos = some (c', pos', e) ∧
      (e = true → c'.Sane) ∧
      (e = false → c'.slots = c.slots ∧ c'.reqtype = c.reqtype ∧ c'.errors = [] ∧
        c'.argv.length + c'.multibulklen = c.argv.length + missing ∧
        c'.querybuf.length - pos' + 2 * (missing - c'.multibulklen) ≤
          c.querybuf.length - pos) := by
  induction missing with
  | zero =>
    intro c pos _ hmulti _ herrors
    refine ⟨c, pos, false, rfl, by rintro ⟨⟩, fun _ => ⟨rfl, rfl, herrors, by rw [hmulti], ?_⟩⟩
    omega
  | succ missing ih =>
    intro c pos hroom hmulti hpos herrors
    rw [bulkLoop]
    cases hline : c.readBulkLen maxBulkLen pos with
    | wait =>
      exact ⟨c, pos, false, rfl, by rintro ⟨⟩, fun _ => ⟨rfl, rfl, herrors, by omega, by omega⟩⟩
    | fail e start =>
      exact ⟨_, 0, true, rfl, fun _ => sane_setProtocolError herrors e start, by rintro ⟨⟩⟩
    | read c₁ len pos₁ =>
      obtain ⟨q, rfl, hpos₁, hrest⟩ := readBulkLen_read hpos hline
      simp only
      split_ifs with hshort hfull hall
      · exact ⟨_, pos₁, false, rfl, by rintro ⟨⟩,
          fun _ => ⟨rfl, rfl, herrors, by simp only; omega, by simp only; omega⟩⟩
      · exact absurd hfull (by omega)
      · obtain ⟨c', pos', e, hloop, hfail, hok⟩ := ih
          { QueryClient.pushArg { c with querybuf := q, bulklen := some len } (q.take len) missing
            with querybuf := [] } 0
          (by simp only [pushArg, List.length_append, List.length_singleton]; omega) rfl
          (Nat.zero_le _) herrors
        refine ⟨c', pos', e, hloop, hfail, fun he => ?_⟩
        obtain ⟨hslots, hreq, herr, hargs, hlen⟩ := hok he
        simp only [pushArg, List.length_append, List.length_singleton, List.length_nil]
          at hargs hlen
        exact ⟨hslots, hreq, herr, by omega, by omega⟩
      · obtain ⟨c', pos', e, hloop, hfail, hok⟩ := ih
          (QueryClient.pushArg { c with querybuf := q, bulklen := some len }
            ((q.drop pos₁).take len) missing) (pos₁ + (len + 2))
          (by simp only [pushArg, List.length_append, List.length_singleton]; omega) rfl
          (not_lt.mp hshort) herrors
        refine ⟨c', pos', e, hloop, hfail, fun he => ?_⟩
        obtain ⟨hslots, hreq, herr, hargs, hlen⟩ := hok he
        simp only [pushArg, List.length_append, List.length_singleton] at hargs hlen
        exact ⟨hslots, hreq, herr, by omega, by omega⟩

/-- What a call for one request ends in: a client that waits for more or is to be closed, or a
command, and less input. -/
def Progress (c : QueryClient) (r : Option (QueryClient × Bool)) : Prop :=
  ∃ c' ready, r = some (c', ready) ∧ (ready = false → c'.Sane) ∧
    (ready = true → c'.errors = [] ∧ c'.querybuf.length < c.querybuf.length)

theorem progress_readArgs {c : QueryClient} {pos : ℕ} (hne : c.multibulklen ≠ 0)
    (hroom : c.argv.length + c.multibulklen = c.slots ∧ c.slots ≤ mbulkMax)
    (hreq : c.reqtype = .multibulk) (hpos : pos ≤ c.querybuf.length) (herrors : c.errors = []) :
    Progress c (c.readArgs maxBulkLen pos) := by
  obtain ⟨c', pos', e, hloop, hfail, hok⟩ := @bulkLoop_total maxBulkLen
    c.multibulklen c pos hroom.1.le rfl hpos herrors
  rw [readArgs, if_neg hne, hloop]
  cases e with
  | true => exact ⟨c', false, rfl, fun _ => hfail rfl, by rintro ⟨⟩⟩
  | false =>
    obtain ⟨hslots, hreq', herr, hargs, hlen⟩ := hok rfl
    refine ⟨_, _, rfl, fun hready => sane_of_reading ?_, fun hready => ⟨herr, ?_⟩⟩
    · have hne' : c'.multibulklen ≠ 0 := of_decide_eq_false hready
      exact ⟨fun h0 => absurd h0 hne', fun _ => ⟨by simp only; omega, hslots ▸ hroom.2⟩,
        fun _ => hreq'.trans hreq, fun h0 => absurd h0 hne', herr⟩
    · have hzero : c'.multibulklen = 0 := of_decide_eq_true hready
      simp only [List.length_drop]
      omega

theorem progress_processMultibulkBuffer {c : QueryClient} (h : c.Reading)
    (hreq : c.reqtype = .multibulk) : Progress c (c.processMultibulkBuffer maxBulkLen) := by
  have hwait : ∀ r, r = some (c, false) → Progress c r := by
    rintro _ rfl
    exact ⟨c, false, rfl, fun _ => sane_of_reading h, by rintro ⟨⟩⟩
  have hfail : ∀ e pos, Progress c (some (c.setProtocolError e pos, false)) := fun e pos =>
    ⟨_, false, rfl, fun _ => sane_setProtocolError h.clean e pos, by rintro ⟨⟩⟩
  rw [processMultibulkBuffer]
  split
  · next hzero =>
    rw [if_neg (by rw [h.fresh hzero]; exact not_not.mpr rfl)]
    split
    · split
      · exact hfail _ _
      · exact hwait _ rfl
    · next newline _ =>
      split_ifs with hshort hstar
      · exact hwait _ rfl
      · exact absurd (h.starred hzero hreq) hstar
      · split
        · exact hfail _ _
        · next ll _ =>
          split_ifs with hmax hle
          · exact hfail _ _
          · refine ⟨_, true, rfl, by rintro ⟨⟩, fun _ => ⟨h.clean, ?_⟩⟩
            simp only [List.length_drop]
            omega
          · have hpos : 0 < ll.toInt := by
              simpa [Int64.le_iff_toInt_le] using hle
            have hargv : c.argv.length = 0 := by rw [h.fresh hzero]; rfl
            exact progress_readArgs (c := { c with multibulklen := ll.toInt.toNat
                                                   slots := ll.toInt.toNat })
              (by simp only; omega) ⟨by simp only; omega, by simp only; omega⟩ hreq
              (by simp only; omega) h.clean
  · next hne => exact progress_readArgs hne (h.room hne) hreq (Nat.zero_le _) h.clean

theorem progress_processInlineBuffer {c : QueryClient} (h : c.Reading) (hbuf : c.querybuf ≠ []) :
    Progress c (some c.processInlineBuffer) := by
  have hfail : ∀ e pos, Progress c (some (c.setProtocolError e pos, false)) := fun e pos =>
    ⟨_, false, rfl, fun _ => sane_setProtocolError h.clean e pos, by rintro ⟨⟩⟩
  rw [processInlineBuffer]
  split
  · split
    · exact hfail _ _
    · exact ⟨c, false, rfl, fun _ => sane_of_reading h, by rintro ⟨⟩⟩
  · simp only
    split
    · exact hfail _ _
    · refine ⟨_, true, rfl, by rintro ⟨⟩, fun _ => ⟨h.clean, ?_⟩⟩
      have hpos := List.length_pos_iff.mpr hbuf
      simp only [List.length_drop]
      omega

/-- **The loop over the requests ends**: with as many rounds as there are bytes, there is a
result. -/
theorem inputLoop_total (rounds : ℕ) : ∀ c : QueryClient, c.Sane → c.querybuf.length ≤ rounds →
    ∃ c', c.inputLoop maxBulkLen rounds = some c' ∧ c'.Sane := by
  induction rounds with
  | zero =>
    intro c hsane hlen
    exact ⟨c, if_pos (List.length_eq_zero_iff.mp (by omega)), hsane⟩
  | succ rounds ih =>
    intro c hsane hlen
    rw [inputLoop]
    split
    · exact ⟨c, rfl, hsane⟩
    · next hgo =>
      obtain ⟨hbuf, hopen⟩ := not_or.mp hgo
      have hreading := reading_setReqtype (reading_of_sane hsane (Bool.not_eq_true _ ▸ hopen))
      have hbuf' : c.setReqtype.querybuf = c.querybuf := by
        rw [setReqtype]
        split <;> rfl
      obtain ⟨c', ready, hr, hwait, hready⟩ : Progress c.setReqtype
          (c.setReqtype.processBuffer maxBulkLen) := by
        rw [processBuffer]
        split
        · exact progress_processInlineBuffer hreading (by rwa [hbuf'])
        · next hreq =>
          refine progress_processMultibulkBuffer hreading ?_
          -- the type is known by now
          rw [setReqtype] at hreq ⊢
          split at hreq
          · next hunknown =>
            rw [if_pos hunknown]
            simp only at hreq ⊢
            split at hreq
            · next hstar => rw [if_pos hstar]
            · exact absurd rfl hreq
          · next hknown =>
            rw [if_neg hknown]
            cases hc : c.reqtype with
            | unknown => exact absurd hc hknown
            | inline => exact absurd hc hreq
            | multibulk => rfl
      rw [hr]
      cases ready with
      | false => exact ⟨c', rfl, hwait rfl⟩
      | true =>
        obtain ⟨herrors, hless⟩ := hready rfl
        refine ih c'.processCommand (sane_processCommand herrors) ?_
        have hkeep : c'.processCommand.querybuf = c'.querybuf := by
          rw [processCommand]
          split
          · rfl
          · split <;> rfl
        rw [hkeep]
        rw [hbuf'] at hless
        omega

theorem receive_total {c : QueryClient} (h : c.Sane) (bs : Sds) :
    ∃ c', c.receive maxBulkLen bs = some c' ∧ c'.Sane := by
  refine inputLoop_total _ _ ?_ le_rfl
  rw [Sane] at h ⊢
  simp only
  split
  · next hclose => rwa [if_pos hclose] at h
  · next hopen =>
    rw [if_neg hopen] at h
    refine ⟨h.fresh, h.room, h.multi, fun hzero hreq => ?_, h.clean⟩
    have hstar := h.starred hzero hreq
    cases hq : c.querybuf with
    | nil => rw [hq] at hstar; cases hstar
    | cons b q => rw [hq] at hstar; exact hstar

theorem receiveAll_total (bss : List Sds) : ∀ {c : QueryClient}, c.Sane →
    ∃ c', c.receiveAll maxBulkLen bss = some c' ∧ c'.Sane := by
  induction bss with
  | nil => exact fun {c} h => ⟨c, rfl, h⟩
  | cons bs bss ih =>
    intro c h
    obtain ⟨c₁, hc₁, hsane⟩ : ∃ c₁, c.receive maxBulkLen bs = some c₁ ∧ c₁.Sane :=
      receive_total h bs
    obtain ⟨c₂, hc₂, hsane₂⟩ := ih hsane
    exact ⟨c₂, by rw [receiveAll, hc₁, Option.bind_some, hc₂], hsane₂⟩

theorem reading_create : create.Reading :=
  ⟨fun _ => rfl, fun hne => absurd rfl hne, fun hne => absurd rfl hne, (by rintro - ⟨⟩), rfl⟩

end QueryClient

open QueryClient in
/-- **The parser takes anything.** Whatever bytes arrive, in whatever pieces, no assertion fails, no
string is written beyond the array, which has a million entries at most, and the loop ends. There
is one protocol error at most, and after it the client is to be closed. -/
theorem queryClient_total (maxBulkLen : ℕ) (bss : List Sds) :
    ∃ c, create.receiveAll maxBulkLen bss = some c ∧ c.errors.length ≤ 1 ∧
      (c.errors ≠ [] → c.closeAfterReply = true) ∧
      (c.closeAfterReply = false → c.multibulklen ≠ 0 →
        c.argv.length + c.multibulklen = c.slots ∧ c.slots ≤ mbulkMax) := by
  obtain ⟨c, hc, hsane⟩ : ∃ c, create.receiveAll maxBulkLen bss = some c ∧ c.Sane :=
    receiveAll_total bss (sane_of_reading reading_create)
  refine ⟨c, hc, ?_⟩
  cases hclose : c.closeAfterReply with
  | true =>
    rw [Sane, hclose] at hsane
    exact ⟨hsane, fun _ => rfl, by rintro ⟨⟩⟩
  | false =>
    have hreading := reading_of_sane hsane hclose
    rw [hreading.clean]
    exact ⟨Nat.zero_le 1, fun hne => absurd rfl hne, fun _ hne => hreading.room hne⟩

end RemoveWin
