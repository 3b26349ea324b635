import RemoveWin.Sds

/-!
# Words of a line

A request may be typed as a line of words. `sdssplitargs` (`sds.c`) splits it: words are separated
by blanks, and may be quoted, with escapes in double quotes. `sdscatrepr` writes a string in a form
that is read back.
-/

namespace RemoveWin

/-! ### Words of a line -/

/-- `isspace`. -/
def isspace (b : Fin 256) : Bool := b.val = 32 || (9 ≤ b.val && b.val ≤ 13)

/-- The value of a hexadecimal digit: `is_hex_digit` and `hex_digit_to_int`. -/
def hexDigit (b : Fin 256) : Option ℕ :=
  if 48 ≤ b.val ∧ b.val ≤ 57 then some (b.val - 48)
  else if 97 ≤ b.val ∧ b.val ≤ 102 then some (b.val - 87)
  else if 65 ≤ b.val ∧ b.val ≤ 70 then some (b.val - 55)
  else none

/-- The characters that a backslash gives another meaning. -/
def unescape (b : Fin 256) : Fin 256 :=
  if b.val = 110 then byteOf 10
  else if b.val = 114 then byteOf 13
  else if b.val = 116 then byteOf 9
  else if b.val = 98 then byteOf 8
  else if b.val = 97 then byteOf 7
  else b

/-- What a backslash in double quotes escapes, and how many characters that takes: `x` and two
hexadecimal digits, or any one character. -/
def escaped : Sds → Option (Fin 256 × ℕ)
  | [] => none
  | [e] => some (unescape e, 1)
  | [e, _] => some (unescape e, 1)
  | e :: x :: y :: _ =>
    match decide (e.val = 120), hexDigit x, hexDigit y with
    | true, some x, some y => some (byteOf (x * 16 + y), 3)
    | _, _, _ => some (unescape e, 1)

/-- Where `sdssplitargs` is: between words, in one, in double or in single quotes. -/
inductive SplitMode where
  | blank
  | word
  | quoted
  | single
  deriving DecidableEq

/-- What may follow a closing quote. -/
def endsWord : Sds → Bool
  | [] => true
  | b :: _ => isspace b

/-- The loops of `sdssplitargs` over a string that ends at its first NUL: the words so far, the
current one, and the rest of the line. There is no result if quotes are not closed, or closed in
front of something else than a blank. -/
def splitFrom (words : List Sds) : SplitMode → Sds → Sds → Option (List Sds)
  | .blank, _, [] => some words
  | .blank, _, b :: s =>
    if isspace b then splitFrom words .blank [] s
    else if b.val = 34 then splitFrom words .quoted [] s
    else if b.val = 39 then splitFrom words .single [] s
    else splitFrom words .word [b] s
  | .word, current, [] => some (words ++ [current])
  | .word, current, b :: s =>
    if b.val = 32 ∨ b.val = 10 ∨ b.val = 13 ∨ b.val = 9 then
      splitFrom (words ++ [current]) .blank [] s
    else if b.val = 34 then splitFrom words .quoted current s
    else if b.val = 39 then splitFrom words .single current s
    else splitFrom words .word (current ++ [b]) s
  | .quoted, _, [] => none
  | .quoted, current, b :: s =>
    match decide (b.val = 92), escaped s with
    | true, some (byte, n) => splitFrom words .quoted (current ++ [byte]) (s.drop n)
    | _, _ =>
      if b.val = 34 then
        if endsWord s then splitFrom (words ++ [current]) .blank [] s else none
      else splitFrom words .quoted (current ++ [b]) s
  | .single, _, [] => none
  | .single, current, b :: s =>
    if b.val = 92 ∧ s.head? = some (byteOf 39) then
      splitFrom words .single (current ++ [byteOf 39]) (s.drop 1)
    else if b.val = 39 then
      if endsWord s then splitFrom (words ++ [current]) .blank [] s else none
    else splitFrom words .single (current ++ [b]) s
termination_by _ _ s => s.length

/-- `sdssplitargs`, `none` for `NULL`. -/
def sdssplitargs (line : Sds) : Option (List Sds) := splitFrom [] .blank [] (sdsnew line)

/-! ### Writing a word -/

/-- `isprint`. -/
def isprint (b : Fin 256) : Bool := 32 ≤ b.val && b.val ≤ 126

/-- A hexadecimal digit of `%02x`. -/
def hexChar (d : ℕ) : Fin 256 := if d < 10 then byteOf (48 + d) else byteOf (87 + d)

/-- What `sdscatrepr` writes for a byte. -/
def reprByte (b : Fin 256) : Sds :=
  if b.val = 92 ∨ b.val = 34 then bytes [92] ++ [b]
  else if b.val = 10 then bytes [92, 110]
  else if b.val = 13 then bytes [92, 114]
  else if b.val = 9 then bytes [92, 116]
  else if b.val = 7 then bytes [92, 97]
  else if b.val = 8 then bytes [92, 98]
  else if isprint b then [b]
  else bytes [92, 120] ++ [hexChar (b.val / 16), hexChar (b.val % 16)]

/-- `sdscatrepr` of a string, to an empty one. -/
def sdscatrepr (s : Sds) : Sds := bytes [34] ++ s.flatMap reprByte ++ bytes [34]

/-! ### Reading back -/

theorem hexDigit_hexChar : ∀ d < 16, hexDigit (hexChar d) = some d := by decide

theorem escaped_of_ne {e : Fin 256} (h : e.val ≠ 120) (s : Sds) :
    escaped (e :: s) = some (unescape e, 1) := by
  match s with
  | [] => rfl
  | [_] => rfl
  | x :: y :: s => simp [escaped, h]

theorem escaped_hex (b : Fin 256) (s : Sds) :
    escaped (byteOf 120 :: hexChar (b.val / 16) :: hexChar (b.val % 16) :: s) =
      some (b, 3) := by
  have hbyte : byteOf (b.val / 16 * 16 + b.val % 16) = b := by
    rw [Nat.div_add_mod']
    exact Fin.ofNat_val_eq_self b
  simp only [escaped, hexDigit_hexChar _ (show b.val / 16 < 16 by omega),
    hexDigit_hexChar _ (show b.val % 16 < 16 by omega)]
  exact congrArg (fun byte => some (byte, 3)) hbyte

theorem splitFrom_escaped {byte : Fin 256} {n : ℕ} {s : Sds} (h : escaped s = some (byte, n))
    (words : List Sds) (current : Sds) :
    splitFrom words .quoted current (byteOf 92 :: s) =
      splitFrom words .quoted (current ++ [byte]) (s.drop n) := by
  rw [splitFrom, h]
  rfl

theorem splitFrom_escape {e : Fin 256} (he : e.val ≠ 120) (words : List Sds) (current s : Sds) :
    splitFrom words .quoted current (bytes [92] ++ e :: s) =
      splitFrom words .quoted (current ++ [unescape e]) s :=
  splitFrom_escaped (escaped_of_ne he s) words current

theorem splitFrom_hex (b : Fin 256) (words : List Sds) (current s : Sds) :
    splitFrom words .quoted current
      (bytes [92, 120] ++ [hexChar (b.val / 16), hexChar (b.val % 16)] ++ s) =
        splitFrom words .quoted (current ++ [b]) s :=
  splitFrom_escaped (escaped_hex b s) words current

theorem splitFrom_quoted {b : Fin 256} (h92 : b.val ≠ 92) (words : List Sds) (current s : Sds) :
    splitFrom words .quoted current (b :: s) = if b.val = 34 then
      if endsWord s then splitFrom (words ++ [current]) .blank [] s else none
      else splitFrom words .quoted (current ++ [b]) s := by
  rw [splitFrom, decide_eq_false h92]

/-- **Each byte is read back**, within double quotes. -/
theorem splitFrom_reprByte (b : Fin 256) (words : List Sds) (current s : Sds) :
    splitFrom words .quoted current (reprByte b ++ s) =
      splitFrom words .quoted (current ++ [b]) s := by
  rw [reprByte]
  split_ifs with hquote hn hr ht ha hb hprint
  · have hun : unescape b = b := by
      simp only [unescape]
      rw [if_neg (by omega), if_neg (by omega), if_neg (by omega), if_neg (by omega),
        if_neg (by omega)]
    have hesc := splitFrom_escape (e := b) (by omega) words current s
    rw [hun] at hesc
    exact hesc
  · obtain rfl : b = byteOf 10 := Fin.ext hn
    exact splitFrom_escape (e := byteOf 110) (by decide) words current s
  · obtain rfl : b = byteOf 13 := Fin.ext hr
    exact splitFrom_escape (e := byteOf 114) (by decide) words current s
  · obtain rfl : b = byteOf 9 := Fin.ext ht
    exact splitFrom_escape (e := byteOf 116) (by decide) words current s
  · obtain rfl : b = byteOf 7 := Fin.ext ha
    exact splitFrom_escape (e := byteOf 97) (by decide) words current s
  · obtain rfl : b = byteOf 8 := Fin.ext hb
    exact splitFrom_escape (e := byteOf 98) (by decide) words current s
  · rw [List.singleton_append, splitFrom_quoted (by omega), if_neg (by omega)]
  · exact splitFrom_hex b words current s

theorem splitFrom_flatMap_reprByte (w : Sds) : ∀ (words : List Sds) (current s : Sds),
    splitFrom words .quoted current (w.flatMap reprByte ++ s) =
      splitFrom words .quoted (current ++ w) s := by
  induction w with
  | nil => simp
  | cons b w ih =>
    intro words current s
    rw [List.flatMap_cons, List.append_assoc, splitFrom_reprByte, ih, List.append_assoc]
    rfl

theorem splitFrom_sdscatrepr (w : Sds) (words : List Sds) {s : Sds} (hs : endsWord s = true) :
    splitFrom words .blank [] (sdscatrepr w ++ s) = splitFrom (words ++ [w]) .blank [] s := by
  rw [sdscatrepr, List.append_assoc, List.append_assoc]
  show splitFrom words .blank [] (byteOf 34 :: (w.flatMap reprByte ++ (bytes [34] ++ s))) = _
  rw [splitFrom, if_neg (by decide), if_pos (by decide), splitFrom_flatMap_reprByte,
    List.nil_append]
  show splitFrom words .quoted w (byteOf 34 :: s) = _
  rw [splitFrom_quoted (by decide), if_pos (by decide), if_pos hs]

/-- A line of words, as they are written with a blank behind each. -/
def reprLine (ws : List Sds) : Sds := ws.flatMap fun w => sdscatrepr w ++ bytes [32]

theorem splitFrom_reprLine (ws : List Sds) : ∀ words : List Sds,
    splitFrom words .blank [] (reprLine ws) = some (words ++ ws) := by
  induction ws with
  | nil =>
    intro words
    rw [List.append_nil]
    exact splitFrom.eq_1 ..
  | cons w ws ih =>
    intro words
    rw [reprLine, List.flatMap_cons, List.append_assoc, splitFrom_sdscatrepr w words rfl]
    show splitFrom (words ++ [w]) .blank [] (byteOf 32 :: reprLine ws) = _
    rw [splitFrom, if_pos (by decide), ih, List.append_assoc]
    rfl

theorem hexChar_ne_zero : ∀ d < 16, hexChar d ≠ 0 := by decide

theorem nulFree_reprByte (b : Fin 256) : NulFree (reprByte b) := by
  have hhi := hexChar_ne_zero (b.val / 16) (by omega)
  have hlo := hexChar_ne_zero (b.val % 16) (by omega)
  rw [NulFree, reprByte]
  split_ifs with hquote
  · have hb : (0 : Fin 256) ≠ b := by rintro rfl; simp at hquote
    simp [bytes, hb]
  · decide
  · decide
  · decide
  · decide
  · decide
  · next hprint =>
    have hb : (0 : Fin 256) ≠ b := by rintro rfl; simp [isprint] at hprint
    simp [hb]
  · simp [bytes, hhi.symm, hlo.symm]

theorem nulFree_reprLine (ws : List Sds) : NulFree (reprLine ws) := by
  intro h0
  obtain ⟨w, -, hw⟩ := List.mem_flatMap.mp h0
  rw [sdscatrepr] at hw
  simp only [List.mem_append, List.mem_flatMap] at hw
  rcases hw with ((h | ⟨b, -, h⟩) | h) | h
  · exact absurd h (by decide)
  · exact nulFree_reprByte b h
  · exact absurd h (by decide)
  · exact absurd h (by decide)

/-- **What `sdscatrepr` writes, `sdssplitargs` reads.** Any words, of any bytes, come back from a
line of their representations. -/
theorem sdssplitargs_sdscatrepr (ws : List Sds) : sdssplitargs (reprLine ws) = some ws := by
  rw [sdssplitargs, sdsnew_of_nulFree (nulFree_reprLine ws), splitFrom_reprLine]
  rfl

end RemoveWin
