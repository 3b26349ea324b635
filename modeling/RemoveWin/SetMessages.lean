import RemoveWin.Lib.Reads
import RemoveWin.Message
import RemoveWin.OrSet.Model
import RemoveWin.PnSet.Model
import RemoveWin.RwSet.Model
import RemoveWin.TextCodec

/-!
# The messages of the set commands

An accepted set command sends the arguments of the client, then what its prepare phase prepared for
each member, then the number of members. The effect phase is given all of it as `c->rargv` and
reads it from the back: the count first, and from there on entry by entry. An entry is a member and
a clock, a tag or a number; a member alone; or a member, its tags and their number.

Here the effect phases are what they are in the source, loops over `c->rargv` with indices that are
computed from its length. What they do with an entry is a parameter, so that the reading can be
told apart from the rest: a loop that keeps the entries it is given shows which it visits.

## Main results

* `RemoveWin.set_messages_decode` — messages are built, the entries visited are those prepared, in
  reverse order, and of the client's arguments only the key is read
* `RemoveWin.gives_rwsRead`, `gives_orsRead`, `gives_pnsRead` — reading a message is applying it
-/

namespace RemoveWin

open Cells

variable {σ ε π : Type}

/-! ### Writing -/

/-- The arguments a prepare phase adds: those of each entry, and the number of entries. -/
def messageArgs (args : ε → Option (List Sds)) (es : List ε) : Option (List Sds) :=
  (es.mapM args).map fun ls => ls.flatten ++ [sdsfromlonglong (.ofNat es.length)]

/-- The message of a command line whose prepare phase prepared the entries. -/
def messageOf (args : ε → Option (List Sds)) (argv : List Sds) (es : List ε) :
    Option (List Sds) :=
  (messageArgs args es).bind (rargvOf argv)

/-- A member and its clock. -/
def RwEntry.args (e : RwEntry) : Option (List Sds) := (vcToSds e.clock).map fun t => [e.member, t]

/-- A member and its tag. -/
def OrAdd.args (e : OrAdd) : Option (List Sds) := some [e.member, e.tag]

/-- A member, its tags, and how many there are. -/
def OrRem.args (e : OrRem) : Option (List Sds) :=
  some (e.member :: (e.tags ++ [sdsfromlonglong (.ofNat e.tags.length)]))

/-- The messages of the RWF-Set commands. -/
def rwMessage : List Sds → List RwEntry → Option (List Sds) := messageOf RwEntry.args

/-- The messages of the OR-Set commands that add. -/
def orAddMessage : List Sds → List OrAdd → Option (List Sds) := messageOf OrAdd.args

/-- The messages of the OR-Set commands that remove. -/
def orRemMessage : List Sds → List OrRem → Option (List Sds) := messageOf OrRem.args

/-- The messages of the PN-Set commands that add: a member and a `long long`. -/
def pnAddMessage : List Sds → List (Sds × Int64) → Option (List Sds) :=
  messageOf fun e => some [e.1, sdsfromlonglong e.2]

/-- The messages of the PN-Set commands that remove: a member. -/
def pnRemMessage : List Sds → List Sds → Option (List Sds) := messageOf fun x => some [x]

/-! ### Reading -/

/-- `getLongLongFromObject` into a variable that has no value yet. -/
def getLongLong (i : ℤ) : Reads Sds Int64 := do
  let o ← .cell i
  .ofOption (string2ll o)

/-- `getLongLongFromObject` into a variable that keeps its value if there is no number. -/
def getLongLongInto (target : Int64) (i : ℤ) : Reads Sds Int64 := do
  let o ← .cell i
  return (string2ll o).getD target

/-- The effect phases that read pairs. `start` is `getSetOrCreate`, which is handed the key and a
member as a sample, and `visit` what is done with an entry. -/
def pairsGenericCommand (payload : Sds → Option π) (mk : Sds → π → ε) (rounds : Int64 → ℕ)
    (start : Sds → Sds → σ → σ) (visit : Sds → σ → ε → σ) (s : σ) : Reads Sds σ := do
  let setName ← .cell 1
  let n ← .size
  let count ← getLongLong (n - 1)
  if count = 0 then return s
  let sample ← Reads.cell (n - 3)
  .loop (fun i s => do
    let idx := n - 3 - 2 * i
    let o ← .cell (idx + 1)
    let t ← .ofOption (payload o)
    let x ← .cell idx
    return visit setName s (mk x t)) (rounds count) 0 (start setName sample s)

/-- `saddGenericCommand`. Its loop runs up to the count as an `int`. -/
def saddGenericCommand (start : Sds → Sds → σ → σ) (visit : Sds → σ → RwEntry → σ) (s : σ) :
    Reads Sds σ :=
  pairsGenericCommand sdsToVC RwEntry.mk (fun added => added.toInt32.toInt.toNat) start visit s

/-- `sremGenericCommand`. -/
def sremGenericCommand (start : Sds → Sds → σ → σ) (visit : Sds → σ → RwEntry → σ) (s : σ) :
    Reads Sds σ :=
  pairsGenericCommand sdsToVC RwEntry.mk (fun remed => remed.toInt.toNat) start visit s

/-- `orsaddGenericCommand`. -/
def orsaddGenericCommand (start : Sds → Sds → σ → σ) (visit : Sds → σ → OrAdd → σ) (s : σ) :
    Reads Sds σ :=
  pairsGenericCommand some OrAdd.mk (fun added => added.toInt.toNat) start visit s

/-- `pnsaddGenericCommand`. -/
def pnsaddGenericCommand (start : Sds → Sds → σ → σ) (visit : Sds → σ → Sds × Int64 → σ) (s : σ) :
    Reads Sds σ :=
  pairsGenericCommand string2ll Prod.mk (fun added => added.toInt.toNat) start visit s

/-- `pnsremGenericCommand`. -/
def pnsremGenericCommand (start : Sds → Sds → σ → σ) (visit : Sds → σ → Sds → σ) (s : σ) :
    Reads Sds σ := do
  let setName ← .cell 1
  let n ← .size
  let remed ← getLongLong (n - 1)
  if remed = 0 then return s
  let sample ← Reads.cell (n - 2)
  .loop (fun i s => do
    let x ← .cell (n - 2 - i)
    return visit setName s x) remed.toInt.toNat 0 (start setName sample s)

/-- The loop of `orsremGenericCommand`: `jdx` is where the number of tags stands, `idx` where the
member does. -/
def orsremLoop (visit : σ → OrRem → σ) : ℕ → ℤ → ℤ → Int64 → σ → Reads Sds σ
  | 0, _, _, _, s => pure s
  | remed + 1, jdx, idx, tagNum, s => do
    let x ← .cell idx
    let tags ← .slice (idx + 1) (jdx - (idx + 1)).toNat
    let s := visit s ⟨x, tags⟩
    if remed = 0 then return s
    let jdx := idx - 1
    let tagNum ← getLongLongInto tagNum jdx
    orsremLoop visit remed jdx (jdx - tagNum.toInt - 1) tagNum s

/-- `orsremGenericCommand`. -/
def orsremGenericCommand (start : Sds → Sds → σ → σ) (visit : Sds → σ → OrRem → σ) (s : σ) :
    Reads Sds σ := do
  let setName ← .cell 1
  let n ← .size
  let remed ← getLongLong (n - 1)
  if remed = 0 then return s
  let jdx := n - 2
  let tagNum ← getLongLongInto 1 jdx
  let idx := jdx - tagNum.toInt - 1
  let sample ← Reads.cell idx
  orsremLoop (visit setName) remed.toInt.toNat jdx idx tagNum (start setName sample s)

/-- The entries an effect phase visits, in order. -/
def visited (generic : (Sds → Sds → List ε → List ε) → (Sds → List ε → ε → List ε) → List ε →
    Reads Sds (List ε)) : Reads Sds (List ε) :=
  generic (fun _ _ l => l) (fun _ l e => l ++ [e]) []

/-- The positions of a message that an effect phase may read: that of the key, and those behind the
client's arguments. -/
def MayRead (argv : List Sds) (p : ℕ) : Prop := p = 1 ∨ argv.length ≤ p

/-! ### Reading what was written -/

/-- What an effect phase makes of the entries of a message: nothing if there are none, otherwise it
goes through them from the last to the first, with the member of the last as the sample. -/
def backwards (member : ε → Sds) (start : Sds → Sds → σ → σ) (visit : Sds → σ → ε → σ) (key : Sds)
    (es : List ε) (s : σ) : σ :=
  match es.getLast? with
  | none => s
  | some e => es.reverse.foldl (visit key) (start key (member e) s)

theorem backwards_visited (member : ε → Sds) (key : Sds) (es : List ε) :
    backwards member (fun _ _ l => l) (fun _ l e => l ++ [e]) key es [] = es.reverse := by
  have hfold : ∀ (l acc : List ε), l.foldl (fun l e => l ++ [e]) acc = acc ++ l := by
    intro l
    induction l with
    | nil => simp
    | cons e l ih => intro acc; rw [List.foldl_cons, ih, List.append_assoc, List.singleton_append]
  rw [backwards]
  split
  · next h => rw [List.getLast?_eq_none_iff.mp h, List.reverse_nil]
  · exact hfold es.reverse []

theorem toInt_count {n : ℕ} (h : n ≤ intMax) : (Int64.ofNat n).toInt = n := by
  refine Int64.toInt_ofNat_of_lt (lt_of_le_of_lt h ?_)
  decide

theorem toInt32_count {n : ℕ} (h : n ≤ intMax) : (Int64.ofNat n).toInt32.toInt = n := by
  rw [Int64.toInt_toInt32, toInt_count h]
  rw [intMax] at h
  exact Int.bmod_eq_of_le (by omega) (by omega)

theorem count_eq_zero_iff {n : ℕ} (h : n ≤ intMax) : Int64.ofNat n = 0 ↔ n = 0 := by
  constructor
  · intro h0
    have hn := toInt_count h
    rw [h0, Int64.toInt_zero] at hn
    exact_mod_cast hn.symm
  · rintro rfl
    rfl

/-- The shape of a message: the client's arguments, the entries, and their number. -/
structure Framed (args : ε → Option (List Sds)) (argv rargv : List Sds) (es : List ε)
    (enc : ε → List Sds) : Prop where
  row : rargv = argv ++ (es.flatMap enc ++ [sdsfromlonglong (.ofNat es.length)])
  /-- Its length is an `int`. -/
  length_le : rargv.length ≤ intMax
  args : ∀ e ∈ es, args e = some (enc e)

theorem exists_framed {args : ε → Option (List Sds)} {argv rargv : List Sds} {es : List ε}
    (h : messageOf args argv es = some rargv) : ∃ enc, Framed args argv rargv es enc := by
  obtain ⟨all, hall, h⟩ := Option.bind_eq_some_iff.mp h
  obtain ⟨ls, hls, rfl⟩ := Option.map_eq_some_iff.mp hall
  obtain ⟨hrow, hlen⟩ := eq_append_of_rargvOf h
  have hall := mapM_eq_some_iff.mp hls
  have hflat := eq_map_getD [] hall
  rw [hflat, List.forall₂_map_right_iff, List.forall₂_same] at hall
  refine ⟨fun e => (args e).getD [], ?_, hlen, hall⟩
  rw [hrow, hflat, List.flatMap_def]

theorem messageOf_eq {args : ε → Option (List Sds)} {argv : List Sds} {es : List ε}
    {enc : ε → List Sds} (hargs : ∀ e ∈ es, args e = some (enc e))
    (hsize : argv.length + ((es.flatMap enc).length + 1) ≤ 2 ^ 30) :
    messageOf args argv es =
      some (argv ++ (es.flatMap enc ++ [sdsfromlonglong (.ofNat es.length)])) := by
  have hentries : es.mapM args = some (es.map enc) :=
    mapM_eq_some_iff.mpr (List.forall₂_map_right_iff.mpr (List.forall₂_same.mpr hargs))
  rw [messageOf, messageArgs, hentries, Option.map_some, Option.bind_some, ← List.flatMap_def]
  exact rargvOf_eq_append (by rwa [List.length_append, List.length_singleton])

section

variable {argv rargv : List Sds} {es : List ε} {args : ε → Option (List Sds)}
  {enc : ε → List Sds} {key : Sds}

theorem Framed.length_entries_le (h : Framed args argv rargv es enc)
    (henc : ∀ e ∈ es, enc e ≠ []) : es.length ≤ intMax := by
  have hlen := h.length_le
  rw [h.row, List.length_append, List.length_append, List.length_flatMap] at hlen
  have hsum : es.length ≤ (es.map fun e => (enc e).length).sum := by
    refine le_trans (le_of_eq ?_) (List.sum_le_sum (f := fun _ => 1) fun e he => ?_)
    · simp
    · exact List.length_pos_iff.mpr (henc e he)
  omega

theorem Framed.gives_key (h : Framed args argv rargv es enc) (hkey : argv[1]? = some key) :
    Gives rargv (MayRead argv) (.cell 1) key := by
  obtain ⟨hlt, hget⟩ := List.getElem?_eq_some_iff.mp hkey
  obtain ⟨front, back, hargv, hfront⟩ : ∃ front back, argv = front ++ key :: back ∧
      front.length = 1 :=
    ⟨argv.take 1, argv.drop 2, by
      rw [← hget, List.cons_getElem_drop_succ, List.take_append_drop], by
      rw [List.length_take]; omega⟩
  refine Gives.cell (front)
      (back ++ (es.flatMap enc ++ [sdsfromlonglong (.ofNat es.length)])) ?_ ?_ ?_
  · rw [h.row]
    nth_rewrite 1 [hargv]
    rw [List.append_assoc, List.cons_append]
  · rw [hfront]
    rfl
  · exact .inl hfront

theorem Framed.gives_count (h : Framed args argv rargv es enc) :
    Gives rargv (MayRead argv) (getLongLong (rargv.length - 1)) (.ofNat es.length) := by
  refine Gives.bind (a := sdsfromlonglong (.ofNat es.length)) (Gives.cell
    (argv ++ es.flatMap enc) [] ?_ ?_ ?_) (.ofOption (by simp))
  · rw [h.row, List.append_assoc]
  · rw [h.row]
    simp only [List.length_append, List.length_singleton]
    push_cast
    ring
  · rw [MayRead, List.length_append]
    omega

theorem Framed.exists_last (h : Framed args argv rargv es enc) (hes : es ≠ []) :
    ∃ es' e, es = es' ++ [e] ∧ rargv = (argv ++ es'.flatMap enc) ++
      (enc e ++ [sdsfromlonglong (.ofNat es.length)]) := by
  refine ⟨es.dropLast, es.getLast hes, (List.dropLast_append_getLast hes).symm, ?_⟩
  rw [h.row]
  nth_rewrite 1 [← List.dropLast_append_getLast hes]
  rw [List.flatMap_append, List.flatMap_singleton, List.append_assoc, List.append_assoc]

end

/-- **Pairs are read back.** -/
theorem gives_pairsGenericCommand {payload : Sds → Option π} {mk : Sds → π → ε}
    {rounds : Int64 → ℕ} {member : ε → Sds} {value : ε → π} {args : ε → Option (List Sds)}
    (hrounds : ∀ n ≤ intMax, rounds (.ofNat n) = n)
    (hargs : ∀ e l, args e = some l → ∃ t, l = [member e, t] ∧ payload t = some (value e))
    (hmk : ∀ e, mk (member e) (value e) = e) {argv rargv : List Sds} {es : List ε} {key : Sds}
    (hkey : argv[1]? = some key) (h : messageOf args argv es = some rargv)
    (start : Sds → Sds → σ → σ) (visit : Sds → σ → ε → σ) (s : σ) :
    Gives rargv (MayRead argv) (pairsGenericCommand payload mk rounds start visit s)
      (backwards member start visit key es s) := by
  obtain ⟨enc, hf⟩ := exists_framed h
  have henc : ∀ e ∈ es, ∃ t, enc e = [member e, t] ∧ payload t = some (value e) :=
    fun e he => hargs e (enc e) (hf.args e he)
  have hcount : es.length ≤ intMax := hf.length_entries_le fun e he => by
    obtain ⟨t, ht, -⟩ := henc e he
    rw [ht]
    exact List.cons_ne_nil _ _
  refine (hf.gives_key hkey).bind (Gives.size.bind (hf.gives_count.bind ?_))
  by_cases hes : es = []
  · subst hes
    exact Gives.pure s
  · obtain ⟨es', e, hsplit, hrow⟩ := hf.exists_last hes
    have hlast : es.getLast? = some e := by rw [hsplit, List.getLast?_concat]
    simp only [if_neg (mt (count_eq_zero_iff hcount).mp (mt List.length_eq_zero_iff.mp hes)),
      hrounds _ hcount, backwards, hlast]
    obtain ⟨t, ht, -⟩ := henc e (by rw [hsplit]; simp)
    have hsample : Gives rargv (MayRead argv) (.cell ((rargv.length : ℤ) - 3)) (member e) := by
      refine Gives.cell (argv ++ es'.flatMap enc)
        ([t, sdsfromlonglong (.ofNat es.length)]) ?_ ?_ ?_
      · rw [hrow, ht]
        rfl
      · rw [hrow, ht]
        simp only [List.length_append, List.length_cons, List.length_nil]
        push_cast
        ring
      · rw [MayRead, List.length_append]
        omega
    refine hsample.bind (Gives.loop_back (w := 2) (c := 1) es (fun e he => ?_)
      (fun e he front back i s hrow' hback hP => ?_) hf.row rfl fun p hp => .inr hp)
    · obtain ⟨t, ht, -⟩ := henc e he
      rw [ht]
      rfl
    · obtain ⟨t, ht, hpay⟩ := henc e he
      rw [ht] at hrow'
      have hlen : (rargv.length : ℤ) - 3 - 2 * i = front.length := by
        rw [hrow']
        simp only [List.length_append, List.length_cons, List.length_nil, hback]
        push_cast
        ring
      have hvalue : Gives rargv (MayRead argv) (.cell ((rargv.length : ℤ) - 3 - 2 * i + 1)) t := by
        refine Gives.cell (front ++ [member e]) back (by simpa using hrow') ?_ ?_
        · rw [hlen, List.length_append, List.length_singleton, Nat.cast_add, Nat.cast_one]
        · exact hP _ (by rw [List.length_append]; omega)
      have hmember : Gives rargv (MayRead argv) (.cell ((rargv.length : ℤ) - 3 - 2 * i))
          (member e) :=
        .cell front (t :: back) (by simpa using hrow') hlen (hP _ le_rfl)
      have hvisit : visit key s e = visit key s (mk (member e) (value e)) := by rw [hmk]
      rw [hvisit]
      exact hvalue.bind ((Gives.ofOption hpay).bind (hmember.bind (Gives.pure _)))

/-- **Members are read back.** -/
theorem gives_pnsremGenericCommand {argv rargv : List Sds} {xs : List Sds} {key : Sds}
    (hkey : argv[1]? = some key) (h : pnRemMessage argv xs = some rargv)
    (start : Sds → Sds → σ → σ) (visit : Sds → σ → Sds → σ) (s : σ) :
    Gives rargv (MayRead argv) (pnsremGenericCommand start visit s)
      (backwards id start visit key xs s) := by
  obtain ⟨enc, hf⟩ := exists_framed h
  have henc : ∀ x ∈ xs, enc x = [x] := fun x hx => (Option.some.inj (hf.args x hx)).symm
  have hcount : xs.length ≤ intMax := hf.length_entries_le fun x hx => by
    rw [henc x hx]
    exact List.cons_ne_nil _ _
  refine (hf.gives_key hkey).bind (Gives.size.bind (hf.gives_count.bind ?_))
  by_cases hxs : xs = []
  · subst hxs
    exact Gives.pure s
  · obtain ⟨xs', x, hsplit, hrow⟩ := hf.exists_last hxs
    have hlast : xs.getLast? = some x := by rw [hsplit, List.getLast?_concat]
    simp only [if_neg (mt (count_eq_zero_iff hcount).mp (mt List.length_eq_zero_iff.mp hxs)),
      toInt_count hcount, Int.toNat_natCast, backwards, hlast, id]
    rw [henc x (by rw [hsplit]; simp)] at hrow
    have hsample : Gives rargv (MayRead argv) (.cell ((rargv.length : ℤ) - 2)) x := by
      refine Gives.cell (argv ++ xs'.flatMap enc)
        ([sdsfromlonglong (.ofNat xs.length)]) hrow ?_ ?_
      · rw [hrow]
        simp only [List.length_append, List.length_cons, List.length_nil]
        push_cast
        ring
      · rw [MayRead, List.length_append]
        omega
    refine hsample.bind (Gives.loop_back (w := 1) (c := 1) xs (fun x hx => ?_)
      (fun x hx front back i s hrow' hback hP => ?_) hf.row rfl fun p hp => .inr hp)
    · rw [henc x hx]
      rfl
    · rw [henc x hx] at hrow'
      have hlen : (rargv.length : ℤ) - 2 - i = front.length := by
        rw [hrow']
        simp only [List.length_append, List.length_cons, List.length_nil, hback]
        push_cast
        ring
      have hmember : Gives rargv (MayRead argv) (.cell ((rargv.length : ℤ) - 2 - i)) x :=
        .cell front back (by simpa using hrow') hlen (hP _ le_rfl)
      exact hmember.bind (Gives.pure _)

/-- The arguments of an entry with tags. -/
def OrRem.cells (e : OrRem) : List Sds :=
  e.member :: (e.tags ++ [sdsfromlonglong (.ofNat e.tags.length)])

theorem OrRem.length_cells (e : OrRem) : e.cells.length = e.tags.length + 2 := by
  simp [OrRem.cells]

theorem gives_tagNum {row front back : List Sds} {P : ℕ → Prop} {e : OrRem} (target : Int64) {j : ℤ}
    (hrow : row = front ++ (e.cells ++ back)) (hj : j = front.length + 1 + e.tags.length)
    (hP : ∀ p, front.length ≤ p → P p) :
    Gives row P (getLongLongInto target j) (.ofNat e.tags.length) := by
  have hcell : Gives row P (.cell j) (sdsfromlonglong (.ofNat e.tags.length)) := by
    refine Gives.cell (front ++ e.member :: e.tags) back ?_ ?_ ?_
    · rw [hrow, OrRem.cells]
      simp
    · rw [hj, List.length_append, List.length_cons]
      push_cast
      ring
    · exact hP _ (by rw [List.length_append]; omega)
  refine hcell.bind ?_
  rw [string2ll_sdsfromlonglong, Option.getD_some]
  exact Gives.pure _

theorem gives_orsremLoop_succ {row front back : List Sds} {P : ℕ → Prop} {visit : σ → OrRem → σ}
    {remed : ℕ} {e : OrRem} {jdx idx : ℤ} {tagNum : Int64} {s r : σ}
    (hrow : row = front ++ (e.cells ++ back)) (hidx : idx = front.length)
    (hjdx : jdx = idx + 1 + e.tags.length) (hP : ∀ p, front.length ≤ p → P p)
    (hnext : Gives row P (if remed = 0 then pure (visit s e) else do
      let tagNum ← getLongLongInto tagNum (idx - 1)
      orsremLoop visit remed (idx - 1) (idx - 1 - tagNum.toInt - 1) tagNum (visit s e)) r) :
    Gives row P (orsremLoop visit (remed + 1) jdx idx tagNum s) r := by
  have hlen : (jdx - (idx + 1)).toNat = e.tags.length := by omega
  have hmember : Gives row P (.cell idx) e.member := .cell front _ hrow hidx (hP _ le_rfl)
  have htags : Gives row P (.slice (idx + 1) e.tags.length) e.tags := by
    refine Gives.slice (front ++ [e.member])
      (sdsfromlonglong (.ofNat e.tags.length) :: back) ?_ ?_ fun p hp => ?_
    · rw [hrow, OrRem.cells]
      simp
    · rw [hidx, List.length_append, List.length_singleton, Nat.cast_add, Nat.cast_one]
    · rw [List.length_append] at hp
      exact hP p (by omega)
  rw [orsremLoop, hlen]
  exact hmember.bind (htags.bind hnext)

/-- **Groups of tags are read back.** The loop is at the last group, and the groups before it are
found by the numbers at their ends. -/
theorem gives_orsremLoop {row : List Sds} {P : ℕ → Prop} (visit : σ → OrRem → σ)
    (hsize : row.length ≤ intMax) (es : List OrRem) :
    ∀ {e : OrRem} {front back : List Sds} {jdx idx : ℤ} {tagNum : Int64} {s : σ},
      row = front ++ (es.flatMap OrRem.cells ++ (e.cells ++ back)) →
      idx = front.length + (es.flatMap OrRem.cells).length → jdx = idx + 1 + e.tags.length →
      (∀ p, front.length ≤ p → P p) →
      Gives row P (orsremLoop visit (es.length + 1) jdx idx tagNum s)
        (es.reverse.foldl visit (visit s e)) := by
  induction es using List.reverseRecOn with
  | nil =>
    intro e front back jdx idx tagNum s hrow hidx hjdx hP
    rw [List.flatMap_nil, List.length_nil, Nat.cast_zero, add_zero] at hidx
    exact gives_orsremLoop_succ hrow hidx hjdx hP (Gives.pure _)
  | append_singleton es d ih =>
    intro e front back jdx idx tagNum s hrow hidx hjdx hP
    have he : row = (front ++ (es ++ [d]).flatMap OrRem.cells) ++ (e.cells ++ back) := by
      rw [hrow, List.append_assoc]
    rw [List.flatMap_append, List.flatMap_singleton, List.append_assoc] at hrow
    have hd : row = (front ++ es.flatMap OrRem.cells) ++ (d.cells ++ (e.cells ++ back)) := by
      rw [hrow, List.append_assoc]
    have hlen : (((es ++ [d]).flatMap OrRem.cells).length : ℤ) =
        (es.flatMap OrRem.cells).length + (d.tags.length + 2) := by
      rw [List.flatMap_append, List.flatMap_singleton, List.length_append, d.length_cells]
      push_cast
      ring
    have hcount : d.tags.length ≤ intMax := by
      rw [hd] at hsize
      simp only [List.length_append, OrRem.length_cells] at hsize
      omega
    have hnum : Gives row P (getLongLongInto tagNum (idx - 1)) (.ofNat d.tags.length) := by
      refine gives_tagNum tagNum hd ?_ fun p hp => ?_
      · rw [hidx, hlen, List.length_append]
        push_cast
        ring
      · rw [List.length_append] at hp
        exact hP p (by omega)
    have hrest : Gives row P (orsremLoop visit (es.length + 1) (idx - 1)
        (idx - 1 - (Int64.ofNat d.tags.length).toInt - 1) (.ofNat d.tags.length) (visit s e))
        (es.reverse.foldl visit (visit (visit s e) d)) := by
      rw [toInt_count hcount]
      exact ih hrow (by omega) (by omega) hP
    rw [List.length_append, List.length_singleton, List.reverse_append]
    refine gives_orsremLoop_succ he ?_ hjdx (fun p hp => hP p ?_) ?_
    · rw [hidx, List.length_append, Nat.cast_add]
    · rw [List.length_append] at hp
      omega
    · rw [if_neg (Nat.succ_ne_zero _)]
      exact hnum.bind hrest

/-- **Entries with tags are read back.** -/
theorem gives_orsremGenericCommand {argv rargv : List Sds} {es : List OrRem} {key : Sds}
    (hkey : argv[1]? = some key) (h : orRemMessage argv es = some rargv)
    (start : Sds → Sds → σ → σ) (visit : Sds → σ → OrRem → σ) (s : σ) :
    Gives rargv (MayRead argv) (orsremGenericCommand start visit s)
      (backwards OrRem.member start visit key es s) := by
  obtain ⟨enc, hf⟩ := exists_framed h
  have henc : ∀ e ∈ es, enc e = e.cells := fun e he => (Option.some.inj (hf.args e he)).symm
  have hcount : es.length ≤ intMax := hf.length_entries_le fun e he => by
    rw [henc e he]
    exact List.cons_ne_nil _ _
  refine (hf.gives_key hkey).bind (Gives.size.bind (hf.gives_count.bind ?_))
  by_cases hes : es = []
  · subst hes
    exact Gives.pure s
  · obtain ⟨es', e, hsplit, hrow⟩ := hf.exists_last hes
    have hlast : es.getLast? = some e := by rw [hsplit, List.getLast?_concat]
    simp only [if_neg (mt (count_eq_zero_iff hcount).mp (mt List.length_eq_zero_iff.mp hes)),
      toInt_count hcount, Int.toNat_natCast, backwards, hlast]
    have hflat : es'.flatMap enc = es'.flatMap OrRem.cells :=
      List.flatMap_congr fun d hd => henc d (by rw [hsplit]; exact List.mem_append_left _ hd)
    rw [hflat, henc e (by rw [hsplit]; simp)] at hrow
    have hP : ∀ p, (argv ++ es'.flatMap OrRem.cells).length ≤ p → MayRead argv p := by
      intro p hp
      rw [List.length_append] at hp
      exact .inr (by omega)
    have hlen : (rargv.length : ℤ) =
        (argv ++ es'.flatMap OrRem.cells).length + (e.tags.length + 3) := by
      rw [hrow]
      simp only [List.length_append, OrRem.length_cells, List.length_singleton]
      push_cast
      ring
    have htags : e.tags.length ≤ intMax := by
      have := hf.length_le
      omega
    refine (gives_tagNum 1 hrow (by omega) hP).bind ?_
    rw [toInt_count htags]
    have hsample : Gives rargv (MayRead argv)
        (.cell ((rargv.length : ℤ) - 2 - e.tags.length - 1)) e.member :=
      .cell _ _ hrow (by omega) (hP _ le_rfl)
    refine hsample.bind ?_
    rw [hsplit, List.length_append, List.length_singleton, List.reverse_append]
    rw [List.append_assoc] at hrow
    refine gives_orsremLoop (visit key) hf.length_le es' hrow ?_ (by ring) fun p hp => .inr hp
    rw [hlen, List.length_append]
    push_cast
    ring

/-! ### The commands -/

section

variable {argv rargv : List Sds} {key : Sds} (start : Sds → Sds → σ → σ) (s : σ)

theorem RwEntry.args_spec (e : RwEntry) (l : List Sds) (h : e.args = some l) :
    ∃ t, l = [e.member, t] ∧ sdsToVC t = some e.clock := by
  obtain ⟨t, ht, rfl⟩ := Option.map_eq_some_iff.mp h
  exact ⟨t, rfl, sdsToVC_vcToSds ht⟩

theorem gives_saddGenericCommand {es : List RwEntry} (visit : Sds → σ → RwEntry → σ)
    (hkey : argv[1]? = some key) (h : rwMessage argv es = some rargv) :
    Gives rargv (MayRead argv) (saddGenericCommand start visit s)
      (backwards RwEntry.member start visit key es s) := by
  refine gives_pairsGenericCommand (fun n hn => ?_) RwEntry.args_spec (fun _ => rfl) hkey h start
    visit s
  rw [toInt32_count hn, Int.toNat_natCast]

theorem gives_sremGenericCommand {es : List RwEntry} (visit : Sds → σ → RwEntry → σ)
    (hkey : argv[1]? = some key) (h : rwMessage argv es = some rargv) :
    Gives rargv (MayRead argv) (sremGenericCommand start visit s)
      (backwards RwEntry.member start visit key es s) := by
  refine gives_pairsGenericCommand (fun n hn => ?_) RwEntry.args_spec (fun _ => rfl) hkey h start
    visit s
  rw [toInt_count hn, Int.toNat_natCast]

theorem gives_orsaddGenericCommand {es : List OrAdd} (visit : Sds → σ → OrAdd → σ)
    (hkey : argv[1]? = some key) (h : orAddMessage argv es = some rargv) :
    Gives rargv (MayRead argv) (orsaddGenericCommand start visit s)
      (backwards OrAdd.member start visit key es s) := by
  refine gives_pairsGenericCommand (fun n hn => ?_)
    (fun e l hl => ⟨e.tag, (Option.some.inj hl).symm, rfl⟩) (fun _ => rfl) hkey h start visit s
  rw [toInt_count hn, Int.toNat_natCast]

theorem gives_pnsaddGenericCommand {es : List (Sds × Int64)} (visit : Sds → σ → Sds × Int64 → σ)
    (hkey : argv[1]? = some key) (h : pnAddMessage argv es = some rargv) :
    Gives rargv (MayRead argv) (pnsaddGenericCommand start visit s)
      (backwards Prod.fst start visit key es s) := by
  refine gives_pairsGenericCommand (fun n hn => ?_)
    (fun e l hl => ⟨_, (Option.some.inj hl).symm, string2ll_sdsfromlonglong e.2⟩) (fun _ => rfl)
    hkey h start visit s
  rw [toInt_count hn, Int.toNat_natCast]

end

/-- **A message decodes to what was encoded.** It is built as long as it has at most `2 ^ 30`
arguments, of which `added` come from the prepare phase. However long it is, each of the effect
phases visits the entries, each once and the last one first, and of the client's arguments it reads
only the key. -/
def Decodes (argv : List Sds) (message : Option (List Sds)) (added : ℕ)
    (effects : List (Reads Sds (List ε))) (es : List ε) : Prop :=
  (argv.length + added ≤ 2 ^ 30 → message.isSome) ∧
    ∀ rargv, message = some rargv → ∀ effect ∈ effects, Gives rargv (MayRead argv) effect es.reverse

theorem isSome_messageOf {args : ε → Option (List Sds)} {argv : List Sds} {es : List ε}
    {f : ε → List Sds} (hargs : ∀ e ∈ es, args e = some (f e)) {added : ℕ}
    (hadded : (es.flatMap f).length + 1 = added) (hsize : argv.length + added ≤ 2 ^ 30) :
    (messageOf args argv es).isSome := by
  subst hadded
  rw [messageOf_eq hargs hsize]
  rfl

theorem exists_vcToSds {c : VC} (h : c.vector ≠ []) : ∃ t, vcToSds c = some t :=
  ⟨_, by rw [vcToSds, List.getLast?_eq_getLast_of_ne_nil h, Option.map_some]⟩

/-- **Messages decode to what was encoded**, whatever the command line and the entries prepared for
it. A clock has at least one counter. -/
theorem set_messages_decode {argv : List Sds} (hargc : 2 ≤ argv.length) :
    (∀ es : List RwEntry, (∀ e ∈ es, e.clock.vector ≠ []) →
      Decodes argv (rwMessage argv es) (2 * es.length + 1)
        [visited saddGenericCommand, visited sremGenericCommand] es) ∧
    (∀ es, Decodes argv (pnAddMessage argv es) (2 * es.length + 1)
      [visited pnsaddGenericCommand] es) ∧
    (∀ xs, Decodes argv (pnRemMessage argv xs) (xs.length + 1) [visited pnsremGenericCommand] xs) ∧
    (∀ es, Decodes argv (orAddMessage argv es) (2 * es.length + 1)
      [visited orsaddGenericCommand] es) ∧
    ∀ es : List OrRem, Decodes argv (orRemMessage argv es)
      ((es.map fun e => e.tags.length + 2).sum + 1) [visited orsremGenericCommand] es := by
  obtain ⟨key, hkey⟩ : ∃ key, argv[1]? = some key := ⟨_, List.getElem?_eq_getElem hargc⟩
  refine ⟨fun es hclock => ⟨fun hsize => ?_, fun rargv h => ?_⟩,
    fun es => ⟨fun hsize => ?_, fun rargv h => ?_⟩, fun xs => ⟨fun hsize => ?_, fun rargv h => ?_⟩,
    fun es => ⟨fun hsize => ?_, fun rargv h => ?_⟩, fun es => ⟨fun hsize => ?_, fun rargv h => ?_⟩⟩
  · refine isSome_messageOf (f := fun e => [e.member, (vcToSds e.clock).getD []])
      (fun e he => ?_) (by simp [List.length_flatMap, mul_comm]) hsize
    obtain ⟨t, ht⟩ := exists_vcToSds (hclock e he)
    rw [RwEntry.args, ht]
    rfl
  · simp only [List.forall_mem_cons, List.not_mem_nil, false_implies, implies_true, and_true]
    rw [← backwards_visited RwEntry.member key es]
    exact ⟨gives_saddGenericCommand _ _ _ hkey h, gives_sremGenericCommand _ _ _ hkey h⟩
  · exact isSome_messageOf (fun _ _ => rfl) (by simp [List.length_flatMap, mul_comm]) hsize
  · rw [List.forall_mem_singleton, ← backwards_visited Prod.fst key es]
    exact gives_pnsaddGenericCommand _ _ _ hkey h
  · exact isSome_messageOf (fun _ _ => rfl) (by simp) hsize
  · rw [List.forall_mem_singleton, ← backwards_visited id key xs]
    exact gives_pnsremGenericCommand hkey h _ _ _
  · exact isSome_messageOf (fun _ _ => rfl) (by simp [List.length_flatMap, mul_comm]) hsize
  · rw [List.forall_mem_singleton, ← backwards_visited OrAdd.member key es]
    exact gives_orsaddGenericCommand _ _ _ hkey h
  · exact isSome_messageOf (f := OrRem.cells) (fun _ _ => rfl)
      (by simp [List.length_flatMap, OrRem.length_cells]) hsize
  · rw [List.forall_mem_singleton, ← backwards_visited OrRem.member key es]
    exact gives_orsremGenericCommand hkey h _ _ _

/-- `ORSREM k x y z` whose three members have two tags, none and one. -/
theorem set_messages_decode_orsrem :
    ∃ argv rargv : List Sds, ∃ es : List OrRem, 2 ≤ argv.length ∧
      es.map (fun e => e.tags.length) = [2, 0, 1] ∧ orRemMessage argv es = some rargv ∧
      Gives rargv (MayRead argv) (visited orsremGenericCommand) es.reverse := by
  have hargc : 2 ≤ [bytes [111], bytes [107], bytes [120], bytes [121], bytes [122]].length := by
    decide
  obtain ⟨hbuilt, hread⟩ := (set_messages_decode hargc).2.2.2.2
    [⟨bytes [120], [bytes [49], bytes [50]]⟩, ⟨bytes [121], []⟩, ⟨bytes [122], [bytes [51]]⟩]
  obtain ⟨rargv, hrargv⟩ := Option.isSome_iff_exists.mp (hbuilt (by decide))
  exact ⟨_, rargv, _, hargc, by decide, hrargv,
    hread rargv hrargv _ (List.mem_singleton_self _)⟩

theorem backwards_of_start {member : ε → Sds} (start : Sds → σ → σ) (visit : Sds → σ → ε → σ)
    (key : Sds) (es : List ε) (s : σ) :
    backwards member (fun k _ => start k) visit key es s =
      if es.isEmpty then s else es.reverse.foldl (visit key) (start key s) := by
  rw [backwards]
  split
  · next h => rw [List.getLast?_eq_none_iff.mp h, List.isEmpty_nil, if_pos rfl]
  · next e h =>
    have hne : ¬ es.isEmpty := fun hempty => by
      rw [List.isEmpty_iff.mp hempty] at h
      cases h
    rw [if_neg hne]

/-- **Reading a message of the RWF-Set is applying it.** -/
theorem gives_rwsRead {argv rargv : List Sds} (srv : Server) (setName : Sds) (es : List RwEntry)
    (db : RwDb) (hkey : argv[1]? = some setName) (h : rwMessage argv es = some rargv) :
    Gives rargv (MayRead argv)
      (saddGenericCommand (fun k _ db => { db with keys := db.keys.modifySet k id })
        (rwsEntry srv true) db) (rwsEffect srv ⟨true, setName, es⟩ db) ∧
    Gives rargv (MayRead argv)
      (sremGenericCommand (fun k _ db => { db with keys := db.keys.modifySet k id })
        (rwsEntry srv false) db) (rwsEffect srv ⟨false, setName, es⟩ db) := by
  have heff : ∀ isAdd, rwsEffect srv ⟨isAdd, setName, es⟩ db = backwards RwEntry.member
      (fun k _ db => { db with keys := db.keys.modifySet k id }) (rwsEntry srv isAdd) setName es
      db :=
    fun isAdd => (backwards_of_start (fun k (db : RwDb) =>
      { db with keys := db.keys.modifySet k id }) (rwsEntry srv isAdd) setName es db).symm
  rw [heff, heff]
  exact ⟨gives_saddGenericCommand _ db _ hkey h, gives_sremGenericCommand _ db _ hkey h⟩

/-- **Reading a message of the OR-Set is applying it.** -/
theorem gives_orsRead {argv rargv : List Sds} (setName : Sds) (db : OrDb)
    (hkey : argv[1]? = some setName) :
    (∀ es, orAddMessage argv es = some rargv → Gives rargv (MayRead argv)
      (orsaddGenericCommand (fun k _ db => db.modifySet k id) orsaddEntry db)
      (orsEffect (.add setName es) db)) ∧
    ∀ es, orRemMessage argv es = some rargv → Gives rargv (MayRead argv)
      (orsremGenericCommand (fun k _ db => db.modifySet k id) orsremEntry db)
      (orsEffect (.rem setName es) db) := by
  refine ⟨fun es h => ?_, fun es h => ?_⟩
  · have hread := gives_orsaddGenericCommand (fun k _ db => db.modifySet k id) db orsaddEntry hkey h
    rwa [backwards_of_start fun k (db : OrDb) => db.modifySet k id] at hread
  · have hread := gives_orsremGenericCommand hkey h (fun k _ db => db.modifySet k id) orsremEntry db
    rwa [backwards_of_start fun k (db : OrDb) => db.modifySet k id] at hread

/-- **Reading a message of the PN-Set is applying it.** -/
theorem gives_pnsRead {argv rargv : List Sds} (setName : Sds) (db : PnDb)
    (hkey : argv[1]? = some setName) :
    (∀ es, pnAddMessage argv es = some rargv → Gives rargv (MayRead argv)
      (pnsaddGenericCommand (fun k _ db => db.modifySet k id)
        (fun k db e => pnsaddEntry k db ⟨e.1, e.2.toInt⟩) db)
      (pnsEffect (.add setName (es.map fun e => ⟨e.1, e.2.toInt⟩)) db)) ∧
    ∀ xs, pnRemMessage argv xs = some rargv → Gives rargv (MayRead argv)
      (pnsremGenericCommand (fun k _ db => db.modifySet k id) pnsremEntry db)
      (pnsEffect (.rem setName xs) db) := by
  refine ⟨fun es h => ?_, fun xs h => ?_⟩
  · have hread := gives_pnsaddGenericCommand (fun k _ db => db.modifySet k id) db
      (fun k db e => pnsaddEntry k db ⟨e.1, e.2.toInt⟩) hkey h
    rw [backwards_of_start fun k (db : PnDb) => db.modifySet k id] at hread
    rwa [pnsEffect, List.isEmpty_map, ← List.map_reverse, List.foldl_map]
  · have hread := gives_pnsremGenericCommand hkey h (fun k _ db => db.modifySet k id) pnsremEntry db
    rwa [backwards_of_start fun k (db : PnDb) => db.modifySet k id] at hread

end RemoveWin
