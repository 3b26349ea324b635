import Mathlib.Data.Finmap
import Mathlib.Data.BitVec

/-!
# The hash table of `dict.c`

Keyspaces, sets and the vector clocks of a key are all kept in a `dict`: a hash table with chaining
that grows and shrinks while it is in use. A resize allocates a second table, and every command
that follows moves one more chain of the first into it. Until the first is empty a key may be in
either. New keys go into the second.

The chain of a slot is a list of entries, with the entry that was added last in front. The table
that is NULL is the row without chains, and to read a chain that is not there is `none`: a crash, as
is a failed assertion. Keys are compared as values, and the copies and destructors of a `dictType`
are left out, so that of the type only the hash function is left. The value that a caller stores
through the entry that `dictAddRaw` returns is given along with the key.

A table of `2 ^ 61` slots or more takes a number of bytes that does not fit a `size_t`. What
`zcalloc` then returns is shorter than the table is said to be, so this is `none` as well.

## Main definitions

* `RemoveWin.Table`, `RemoveWin.Dict` — `dictht` and `dict`
* `RemoveWin.Dict.dictExpand`, `dictResize`, `dictRehash` — the change of size
* `RemoveWin.Dict.dictAddRaw`, `dictAdd`, `dictReplace`, `dictFind`, `dictGenericDelete`,
  `dictEmpty`
* `RemoveWin.MapCmd`, `RemoveWin.Upkeep`, `RemoveWin.DictState.step` — commands and upkeep
-/

namespace RemoveWin

/-- A `dictht`. Its `size` is the number of chains, none where `table` is NULL. -/
structure Table (κ ν : Type) where
  table : List (List (κ × ν)) := []
  used : ℕ := 0

/-- A `dict`, with `rehashidx` none where it is -1. -/
structure Dict (κ ν : Type) where
  ht0 : Table κ ν := {}
  ht1 : Table κ ν := {}
  rehashidx : Option ℕ := none
  iterators : ℕ := 0

variable {κ ν : Type}

namespace Table

def size (t : Table κ ν) : ℕ :=
  t.table.length

def sizemask (t : Table κ ν) : ℕ :=
  t.size - 1

/-- The slot of a hash, `h & sizemask`. -/
def slot (t : Table κ ν) (h : BitVec 64) : ℕ :=
  (h &&& BitVec.ofNat 64 t.sizemask).toNat

/-- The chain at the slot of a hash. -/
def chain (t : Table κ ν) (h : BitVec 64) : Option (List (κ × ν)) :=
  t.table[t.slot h]?

/-- Put an entry in front of a chain. -/
def push (t : Table κ ν) (idx : ℕ) (e : κ × ν) : Option (Table κ ν) :=
  match t.table[idx]? with
  | none => none
  | some c => some ⟨t.table.set idx (e :: c), t.used + 1⟩

end Table

/-- The first entry of a chain with a key. -/
def findEntry [DecidableEq κ] (key : κ) (c : List (κ × ν)) : Option (κ × ν) :=
  c.find? fun e => e.1 = key

/-- A chain without the first entry with a key. -/
def unlinkEntry [DecidableEq κ] (key : κ) (c : List (κ × ν)) : List (κ × ν) :=
  c.eraseP fun e => e.1 = key

/-- A chain with a value stored in the first entry with a key, as by `dictSetVal`. -/
def setEntry [DecidableEq κ] (key : κ) (val : ν) : List (κ × ν) → List (κ × ν)
  | [] => []
  | e :: c => if e.1 = key then (e.1, val) :: c else e :: setEntry key val c

/-- Replace the chain at the slot of a hash. -/
def Table.setChain (t : Table κ ν) (h : BitVec 64) (c : List (κ × ν)) : Table κ ν :=
  { t with table := t.table.set (t.slot h) c }

namespace Dict

/-- `dictCreate`. -/
def dictCreate : Dict κ ν :=
  {}

def dictIsRehashing (d : Dict κ ν) : Bool :=
  d.rehashidx.isSome

def dictSize (d : Dict κ ν) : ℕ :=
  d.ht0.used + d.ht1.used

/-! ### The change of size -/

/-- The doubling loop of `_dictNextPower`. -/
def nextPowerLoop (size : ℕ) : ℕ → ℕ → ℕ
  | 0, i => i
  | fuel + 1, i => if size ≤ i then i else nextPowerLoop size fuel (i * 2)

/-- `_dictNextPower`. -/
def dictNextPower (size : ℕ) : ℕ :=
  if 2 ^ 63 - 1 ≤ size then 2 ^ 63 else nextPowerLoop size 64 4

/-- `dictExpand`, with whether it was `DICT_OK`. -/
def dictExpand (d : Dict κ ν) (size : ℕ) : Option (Dict κ ν × Bool) :=
  let realsize := dictNextPower size
  if d.dictIsRehashing ∨ size < d.ht0.used then some (d, false)
  else if realsize = d.ht0.size then some (d, false)
  -- `realsize*sizeof(dictEntry*)` wraps
  else if 2 ^ 64 ≤ realsize * 8 then none
  else if d.ht0.table.isEmpty then
    some ({ d with ht0 := ⟨List.replicate realsize [], 0⟩ }, true)
  else some ({ d with ht1 := ⟨List.replicate realsize [], 0⟩, rehashidx := some 0 }, true)

/-- `dictResize`. The number of entries is put into an `int`. -/
def dictResize (canResize : Bool) (d : Dict κ ν) : Option (Dict κ ν × Bool) :=
  if ¬ canResize ∨ d.dictIsRehashing then some (d, false)
  else
    let minimal := (d.ht0.used : ℤ).bmod (2 ^ 32)
    d.dictExpand (if minimal < 4 then 4 else minimal.toNat)

/-- `_dictExpandIfNeeded`. -/
def dictExpandIfNeeded (canResize : Bool) (d : Dict κ ν) : Option (Dict κ ν × Bool) :=
  if d.dictIsRehashing then some (d, true)
  else if d.ht0.size = 0 then d.dictExpand 4
  else if d.ht0.size ≤ d.ht0.used ∧ (canResize ∨ 5 < d.ht0.used / d.ht0.size) then
    d.dictExpand (d.ht0.used * 2)
  else some (d, true)

/-- The loop over empty chains, from a slot on and with the number of them that may be visited. What
is left of that number is 0 if the loop gave up. -/
def skipEmpty (row : List (List (κ × ν))) : ℕ → ℕ → Option (ℕ × ℕ)
  | 0, idx => some (idx, 0)
  | visits + 1, idx =>
    match row[idx]? with
    | none => none
    | some [] => skipEmpty row visits (idx + 1)
    | some (_ :: _) => some (idx, visits + 1)

/-- The loop that moves the entries of a chain, with the number of entries left in the first table
and the second table. -/
def moveChain (hash : κ → BitVec 64) : List (κ × ν) → ℕ → Table κ ν → Option (ℕ × Table κ ν)
  | [], used, t => some (used, t)
  | e :: de, used, t =>
    match t.push (t.slot (hash e.1)) e with
    | none => none
    | some t => moveChain hash de (used - 1) t

/-- The end of `dictRehash`: the second table becomes the first when nothing is left there. -/
def rehashDone (d : Dict κ ν) : Dict κ ν × Bool :=
  if d.ht0.used = 0 then ({ d with ht0 := d.ht1, ht1 := {}, rehashidx := none }, false)
  else (d, true)

/-- The loop of `dictRehash`, at slot `idx`. -/
def rehashLoop (hash : κ → BitVec 64) : ℕ → ℕ → ℕ → Dict κ ν → Option (Dict κ ν × Bool)
  | 0, _, _, d => some d.rehashDone
  | n + 1, visits, idx, d =>
    if d.ht0.used = 0 then some d.rehashDone
    -- the assertion
    else if d.ht0.size ≤ idx then none
    else
      match skipEmpty d.ht0.table visits idx with
      | none => none
      | some (idx, 0) => some ({ d with rehashidx := some idx }, true)
      | some (idx, visits + 1) =>
        match moveChain hash (d.ht0.table.getD idx []) d.ht0.used d.ht1 with
        | none => none
        | some (used, ht1) =>
          rehashLoop hash n (visits + 1) (idx + 1)
            { d with ht0 := ⟨d.ht0.table.set idx [], used⟩, ht1 := ht1,
                     rehashidx := some (idx + 1) }

/-- `dictRehash`, with whether there is more to do. -/
def dictRehash (hash : κ → BitVec 64) (d : Dict κ ν) (n : ℕ) : Option (Dict κ ν × Bool) :=
  match d.rehashidx with
  | none => some (d, false)
  | some idx => rehashLoop hash n (n * 10) idx d

/-- `_dictRehashStep`, as it is called: where a rehash is under way. -/
def dictRehashStep (hash : κ → BitVec 64) (d : Dict κ ν) : Option (Dict κ ν) :=
  if d.dictIsRehashing ∧ d.iterators = 0 then (d.dictRehash hash 1).map Prod.fst else some d

/-! ### Commands -/

/-- Where a lookup ends: at an entry of one of the tables, or nowhere. -/
inductive Located (κ ν : Type) where
  | at0 (e : κ × ν)
  | at1 (e : κ × ν)
  | absent

/-- The entry at which a lookup ends. -/
def Located.entry? : Located κ ν → Option (κ × ν)
  | .at0 e => some e
  | .at1 e => some e
  | .absent => none

section

variable [DecidableEq κ] (hash : κ → BitVec 64)

/-- The loop of the lookups: the chain of the first table, and that of the second if a rehash is
under way. -/
def locate (d : Dict κ ν) (key : κ) : Option (Located κ ν) :=
  match d.ht0.chain (hash key) with
  | none => none
  | some c =>
    match findEntry key c with
    | some e => some (.at0 e)
    | none =>
      if d.dictIsRehashing then
        match d.ht1.chain (hash key) with
        | none => none
        | some c =>
          match findEntry key c with
          | some e => some (.at1 e)
          | none => some .absent
      else some .absent

/-- What `_dictKeyIndex` says: the slot for a new entry, in the second table if a rehash is under
way, or -1 with the entry that has the key, if there is one. -/
inductive KeyIndex (κ ν : Type) where
  | free (idx : ℕ)
  | taken (l : Located κ ν)

/-- The table new entries go to. -/
def addTable (d : Dict κ ν) : Table κ ν :=
  if d.dictIsRehashing then d.ht1 else d.ht0

/-- Store that table. -/
def setAddTable (d : Dict κ ν) (t : Table κ ν) : Dict κ ν :=
  if d.dictIsRehashing then { d with ht1 := t } else { d with ht0 := t }

/-- `_dictKeyIndex`. -/
def dictKeyIndex (canResize : Bool) (d : Dict κ ν) (key : κ) :
    Option (Dict κ ν × KeyIndex κ ν) :=
  match d.dictExpandIfNeeded canResize with
  | none => none
  | some (d, false) => some (d, .taken .absent)
  | some (d, true) =>
    match d.locate hash key with
    | none => none
    | some .absent => some (d, .free (d.addTable.slot (hash key)))
    | some l => some (d, .taken l)

/-- `dictAddRaw`: none if the entry was added, otherwise `*existing`. -/
def dictAddRaw (canResize : Bool) (d : Dict κ ν) (key : κ) (val : ν) :
    Option (Dict κ ν × Option (Located κ ν)) :=
  match d.dictRehashStep hash with
  | none => none
  | some d =>
    match d.dictKeyIndex hash canResize key with
    | none => none
    | some (d, .taken l) => some (d, some l)
    | some (d, .free idx) =>
      match d.addTable.push idx (key, val) with
      | none => none
      | some t => some (d.setAddTable t, none)

/-- `dictAdd`, with whether it was `DICT_OK`. -/
def dictAdd (canResize : Bool) (d : Dict κ ν) (key : κ) (val : ν) : Option (Dict κ ν × Bool) :=
  (d.dictAddRaw hash canResize key val).map fun r => (r.1, r.2.isNone)

/-- `dictReplace`, with whether the key was added. -/
def dictReplace (canResize : Bool) (d : Dict κ ν) (key : κ) (val : ν) :
    Option (Dict κ ν × Bool) :=
  match d.dictAddRaw hash canResize key val with
  | none => none
  | some (d, none) => some (d, true)
  | some (d, some (.at0 _)) =>
    match d.ht0.chain (hash key) with
    | none => none
    | some c => some ({ d with ht0 := d.ht0.setChain (hash key) (setEntry key val c) }, false)
  | some (d, some (.at1 _)) =>
    match d.ht1.chain (hash key) with
    | none => none
    | some c => some ({ d with ht1 := d.ht1.setChain (hash key) (setEntry key val c) }, false)
  -- `*existing` of NULL
  | some (_, some .absent) => none

/-- `dictFind`. -/
def dictFind (d : Dict κ ν) (key : κ) : Option (Dict κ ν × Option (κ × ν)) :=
  if d.ht0.used + d.ht1.used = 0 then some (d, none)
  else
    match d.dictRehashStep hash with
    | none => none
    | some d => (d.locate hash key).map fun l => (d, l.entry?)

/-- A table without the entry that has been found in it. -/
def unlinkFrom (t : Table κ ν) (key : κ) : Option (Table κ ν) :=
  match t.chain (hash key) with
  | none => none
  | some c => some { t.setChain (hash key) (unlinkEntry key c) with used := t.used - 1 }

/-- `dictGenericDelete`, with the entry that has been unlinked. -/
def dictGenericDelete (d : Dict κ ν) (key : κ) : Option (Dict κ ν × Option (κ × ν)) :=
  if d.ht0.used = 0 ∧ d.ht1.used = 0 then some (d, none)
  else
    match d.dictRehashStep hash with
    | none => none
    | some d =>
      match d.locate hash key with
      | none => none
      | some (.at0 e) => (unlinkFrom hash d.ht0 key).map fun t => ({ d with ht0 := t }, some e)
      | some (.at1 e) => (unlinkFrom hash d.ht1 key).map fun t => ({ d with ht1 := t }, some e)
      | some .absent => some (d, none)

end

/-- `dictEmpty`. -/
def dictEmpty (_ : Dict κ ν) : Dict κ ν :=
  { ht0 := {}, ht1 := {}, rehashidx := none, iterators := 0 }

end Dict

/-! ### Runs -/

/-- The commands on a dictionary: `dictAdd`, `dictReplace`, `dictFind`, `dictDelete` or
`dictUnlink`, `dictSize` and `dictEmpty`. -/
inductive MapCmd (κ ν : Type) where
  | add (key : κ) (val : ν)
  | replace (key : κ) (val : ν)
  | find (key : κ)
  | delete (key : κ)
  | size
  | empty

/-- What the commands return. -/
inductive MapReply (ν : Type) where
  | flag (b : Bool)
  | val (v : Option ν)
  | count (n : ℕ)
  | done
  deriving DecidableEq

/-- What else is done to a dictionary: its size is changed, a rehash is carried on, resizing is
allowed or forbidden, and safe iterators begin and are released. -/
inductive Upkeep where
  | expand (size : ℕ)
  | resize
  | rehash (n : ℕ)
  | enableResize
  | disableResize
  | iterate
  | releaseIterator

/-- A dictionary, and the global `dict_can_resize`. -/
structure DictState (κ ν : Type) where
  dict : Dict κ ν := {}
  canResize : Bool := true

namespace DictState

section

variable [DecidableEq κ] (hash : κ → BitVec 64)

/-- A command. -/
def command (s : DictState κ ν) : MapCmd κ ν → Option (DictState κ ν × MapReply ν)
  | .add key val =>
    (s.dict.dictAdd hash s.canResize key val).map fun r => ({ s with dict := r.1 }, .flag r.2)
  | .replace key val =>
    (s.dict.dictReplace hash s.canResize key val).map fun r => ({ s with dict := r.1 }, .flag r.2)
  | .find key =>
    (s.dict.dictFind hash key).map fun r => ({ s with dict := r.1 }, .val (r.2.map Prod.snd))
  | .delete key =>
    (s.dict.dictGenericDelete hash key).map fun r =>
      ({ s with dict := r.1 }, .val (r.2.map Prod.snd))
  | .size => some (s, .count s.dict.dictSize)
  | .empty => some ({ s with dict := s.dict.dictEmpty }, .done)

end

/-- Upkeep. The number of iterators is an `unsigned long`. -/
def upkeep (hash : κ → BitVec 64) (s : DictState κ ν) : Upkeep → Option (DictState κ ν)
  | .expand size => (s.dict.dictExpand size).map fun r => { s with dict := r.1 }
  | .resize => (s.dict.dictResize s.canResize).map fun r => { s with dict := r.1 }
  | .rehash n => (s.dict.dictRehash hash n).map fun r => { s with dict := r.1 }
  | .enableResize => some { s with canResize := true }
  | .disableResize => some { s with canResize := false }
  | .iterate => some { s with dict.iterators := (s.dict.iterators + 1) % 2 ^ 64 }
  | .releaseIterator =>
    some { s with dict.iterators := (s.dict.iterators + (2 ^ 64 - 1)) % 2 ^ 64 }

variable [DecidableEq κ]

/-- Commands and upkeep in any order, with the replies to the commands. -/
def run (hash : κ → BitVec 64) (s : DictState κ ν) :
    List (MapCmd κ ν ⊕ Upkeep) → Option (DictState κ ν × List (MapReply ν))
  | [] => some (s, [])
  | .inl c :: as =>
    match s.command hash c with
    | none => none
    | some (s, r) => (run hash s as).map fun x => (x.1, r :: x.2)
  | .inr u :: as =>
    match s.upkeep hash u with
    | none => none
    | some s => run hash s as

end DictState

/-! ### The finite map -/

/-- What a command is for, on a finite map. -/
def MapCmd.apply [DecidableEq κ] (m : Finmap fun _ : κ => ν) :
    MapCmd κ ν → (Finmap fun _ : κ => ν) × MapReply ν
  | .add key val => if key ∈ m then (m, .flag false) else (m.insert key val, .flag true)
  | .replace key val => (m.insert key val, .flag (decide (key ∉ m)))
  | .find key => (m, .val (m.lookup key))
  | .delete key => (m.erase key, .val (m.lookup key))
  | .size => (m, .count m.keys.card)
  | .empty => (∅, .done)

/-- The replies to a list of commands. -/
def MapCmd.replies [DecidableEq κ] (m : Finmap fun _ : κ => ν) : List (MapCmd κ ν) →
    List (MapReply ν)
  | [] => []
  | c :: cs => (c.apply m).2 :: replies (c.apply m).1 cs

end RemoveWin
