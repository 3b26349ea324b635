import RemoveWin.SetDb
import RemoveWin.TextCodec
import RemoveWin.ZsetType

/-!
# The key space with the tables in it

A container is an object at a key, and its hidden table is a hash at the key with a suffix
appended: `getInnerHT` (`RWFramework.c`) looks it up, and creates it, in the same dictionary of
keys. It takes whatever object it finds there, and the functions of `t_hash.c` then go by the
encoding of that object and not by its type. In the same way the containers are handed to the
functions of `t_set.c` and `t_zset.c`. So a key that is named by one client as a set may be the
table of another set.

What the functions do is decided by the encoding. An object is a type, an encoding, and fields with
values: the members of a set stand without values, those of a sorted set have scores, and the fields
of a table have pointers to metadata. Contents of strings and lists play no part and are left out.

* A set in a hash table is read as a table in which no field has a value, and new fields become
  members of the set.
* A sorted set in a ziplist is read as a table whose values are texts of scores; a pointer is taken
  from such a text, which does not end well. New fields become members, with a score that is read
  from the bytes of a pointer.
* Other encodings make `t_hash.c` panic.

## Main definitions

* `RemoveWin.RedisObj`, `Space` — objects and the key space
* `RemoveWin.RedisObj.hashTypeGetValue`, `hashTypeSet`, `setTypeAdd`, `setTypeRemove`, `zsetAdd`,
  `zsetDel` — by encoding
* `RemoveWin.Space.getInnerHT`, `htGet`, `htFind` — the tables
* `RemoveWin.updateSet`, `updateZset` — what handlers do to containers
* `RemoveWin.Held` — what a server holds, as a store of containers with tables
* `RemoveWin.readSets`, `readZsets` — what a server holds as it reads
-/

namespace RemoveWin

open Containers

/-! ### Objects -/

/-- `robj->type`. -/
inductive ObjType where
  | string
  | list
  | set
  | zset
  | hash
  deriving DecidableEq, Repr

/-- `robj->encoding`. -/
inductive Encoding where
  | raw
  | int
  | embstr
  | ht
  | ziplist
  | intset
  | skiplist
  | quicklist
  deriving DecidableEq, Repr

/-- What stands beside a field: nothing, as in a set; a pointer to metadata; a score; or any other
text, as in a hash of a client. -/
inductive FieldValue (ε : Type) where
  | null
  | ptr (e : ε)
  | score (q : ℚ)
  | text (v : Sds)

/-- The limits of `redis.conf` at which encodings are changed. -/
structure EncodingLimits where
  /-- `hash-max-ziplist-entries`. -/
  hashMaxZiplistEntries : ℕ := 512
  /-- `set-max-intset-entries`. -/
  setMaxIntsetEntries : ℕ := 512
  /-- `zset-max-ziplist-entries`. -/
  zsetMaxZiplistEntries : ℕ := 128
  /-- `zset-max-ziplist-value`. -/
  zsetMaxZiplistValue : ℕ := 64

/-- `robj`, over metadata in `ε`. -/
structure RedisObj (ε : Type) where
  /-- The type. -/
  type : ObjType
  /-- The encoding. -/
  encoding : Encoding
  /-- The fields, or members. -/
  fields : SetObj
  /-- What stands beside each of them. -/
  value : Sds → FieldValue ε

namespace RedisObj

variable {ε : Type}

/-- An object without fields. -/
def create (type : ObjType) (encoding : Encoding) : RedisObj ε :=
  ⟨type, encoding, .empty, fun _ => .null⟩

/-- `createHashObject`. -/
def createHashObject : RedisObj ε := create .hash .ziplist

/-- `createSetObject`. -/
def createSetObject : RedisObj ε := create .set .ht

/-- `createIntsetObject`. -/
def createIntsetObject : RedisObj ε := create .set .intset

/-- What stands beside a field, if it is there. -/
def get (o : RedisObj ε) (x : Sds) : Option (FieldValue ε) :=
  if x ∈ o.fields then some (o.value x) else none

/-- Give a field a value; a new one comes last. -/
def put (o : RedisObj ε) (x : Sds) (v : FieldValue ε) : RedisObj ε :=
  { o with fields := RemoveWin.setTypeAdd o.fields x, value := Function.update o.value x v }

/-- Take a field out. -/
def del (o : RedisObj ε) (x : Sds) : RedisObj ε :=
  { o with fields := RemoveWin.setTypeRemove o.fields x }

/-- Change the encoding, with all fields and values kept. -/
def convert (o : RedisObj ε) (encoding : Encoding) : RedisObj ε := { o with encoding }

/-! #### `t_hash.c` -/

/-- `hashTypeGetValue`: what stands beside a field, `none` for a panic. A hash table entry without a
value is no different from a missing one. -/
def hashTypeGetValue (o : RedisObj ε) (x : Sds) : Option (Option (FieldValue ε)) :=
  match o.encoding with
  | .ziplist => some (o.get x)
  | .ht =>
    match o.get x with
    | some .null => some none
    | v => some v
  | _ => none

/-- `hashTypeSet`; `none` for a panic. -/
def hashTypeSet (lim : EncodingLimits) (o : RedisObj ε) (x : Sds) (v : FieldValue ε) :
    Option (RedisObj ε) :=
  match o.encoding with
  | .ziplist =>
    let o := o.put x v
    some (if lim.hashMaxZiplistEntries < setTypeSize o.fields then o.convert .ht else o)
  | .ht => some (o.put x v)
  | _ => none

/-! #### `t_set.c` -/

/-- `isSdsRepresentableAsLongLong`. -/
def isInteger (x : Sds) : Bool := (string2ll x).isSome

/-- `setTypeAdd`; `none` for a panic. -/
def setTypeAdd (lim : EncodingLimits) (o : RedisObj ε) (x : Sds) : Option (RedisObj ε) :=
  match o.encoding with
  | .ht => some (if x ∈ o.fields then o else o.put x .null)
  | .intset =>
    if isInteger x then
      if x ∈ o.fields then some o
      else
        let o := o.put x .null
        some (if lim.setMaxIntsetEntries < setTypeSize o.fields then o.convert .ht else o)
    else some ((o.convert .ht).put x .null)
  | _ => none

/-- `setTypeRemove`; `none` for a panic. -/
def setTypeRemove (o : RedisObj ε) (x : Sds) : Option (RedisObj ε) :=
  match o.encoding with
  | .ht => some (o.del x)
  | .intset => some (if isInteger x then o.del x else o)
  | _ => none

/-! #### `t_zset.c` -/

/-- `zzlGetScore`, and the score in a skiplist: `read x` is what `strtod` makes of other bytes that
stand beside `x`. -/
def score (read : Sds → ℚ) (o : RedisObj ε) (x : Sds) : ℚ :=
  match o.value x with
  | .score q => q
  | _ => read x

/-- `zsetConvert` to a skiplist. -/
def toSkiplist (read : Sds → ℚ) (o : RedisObj ε) : RedisObj ε :=
  { o with encoding := .skiplist, value := fun x => .score (o.score read x) }

/-- `zsetAdd` without flags; `none` for a panic. -/
def zsetAdd (lim : EncodingLimits) (read : Sds → ℚ) (o : RedisObj ε) (q : ℚ) (x : Sds) :
    Option (RedisObj ε) :=
  match o.encoding with
  | .ziplist =>
    if x ∈ o.fields then some (if o.score read x = q then o else o.put x (.score q))
    else
      let o := o.put x (.score q)
      some (if lim.zsetMaxZiplistEntries < setTypeSize o.fields ∨
        lim.zsetMaxZiplistValue < x.length then o.toSkiplist read else o)
  | .skiplist => some (o.put x (.score q))
  | _ => none

/-- `zsetDel`; `none` for a panic. -/
def zsetDel (o : RedisObj ε) (x : Sds) : Option (RedisObj ε) :=
  match o.encoding with
  | .ziplist => some (o.del x)
  | .skiplist => some (o.del x)
  | _ => none

/-- The metadata that stands beside a field. -/
def entry (o : RedisObj ε) (x : Sds) : Option ε :=
  match o.get x with
  | some (.ptr e) => some e
  | _ => none

/-! #### What is seen of an object -/

/-- An object as the set commands see it: a set, or of another type, of which the fields are seen if
it is kept in a hash table. -/
def asRObj (o : RedisObj ε) : RObj :=
  if o.type = .set then .set o.fields
  else .other (if o.encoding = .ht then some o.fields else none)

/-- An object as the commands of sorted sets see it. In other encodings than its two a sorted set
shows nothing. -/
def asZObj (read : Sds → ℚ) (o : RedisObj ε) : ZObj :=
  if o.type = .zset then
    .zset fun x =>
      if x ∈ o.fields ∧ (o.encoding = .ziplist ∨ o.encoding = .skiplist) then some (o.score read x)
      else none
  else .other

end RedisObj

/-! ### The key space -/

/-- The dictionary of keys of one database. -/
abbrev Space (ε : Type) := Sds → Option (RedisObj ε)

namespace Space

variable {ε : Type}

/-- `getInnerHT` with `create` set: the object at the name with the suffix, of whatever type. -/
def getInnerHT (suffix : Sds) (sp : Space ε) (tname : Sds) : RedisObj ε × Space ε :=
  match sp (tname ++ suffix) with
  | some ht => (ht, sp)
  | none =>
    (.createHashObject, Function.update sp (tname ++ suffix) (some .createHashObject))

/-- `rehHTGet` with `create` set, as `oreHTGet`, `pneHTGet` and `ozeHTGet` have it too. A value that
is not a pointer is followed as one, which is a crash. -/
def htGet (lim : EncodingLimits) (suffix : Sds) (fresh : ε) (sp : Space ε) (tname key : Sds) :
    Option (ε × Space ε) :=
  let (ht, sp) := getInnerHT suffix sp tname
  match ht.hashTypeGetValue key with
  | none => none
  | some none =>
    (ht.hashTypeSet lim key (.ptr fresh)).map fun ht =>
      (fresh, Function.update sp (tname ++ suffix) (some ht))
  | some (some (.ptr e)) => some (e, sp)
  | some (some _) => none

/-- `rehHTGet` without `create`. -/
def htFind (suffix : Sds) (sp : Space ε) (tname key : Sds) : Option (Option ε) :=
  match sp (tname ++ suffix) with
  | none => some none
  | some ht =>
    match ht.hashTypeGetValue key with
    | none => none
    | some none => some none
    | some (some (.ptr e)) => some (some e)
    | some (some _) => none

/-- Write through the pointer that `htGet` returned: the field has another value from now on. -/
def htPut (lim : EncodingLimits) (suffix : Sds) (sp : Space ε) (tname key : Sds) (e : ε) :
    Option (Space ε) :=
  let (ht, sp) := getInnerHT suffix sp tname
  (ht.hashTypeSet lim key (.ptr e)).map fun ht => Function.update sp (tname ++ suffix) (some ht)

/-- The metadata in the table of a name. -/
def table (suffix : Sds) (sp : Space ε) (tname key : Sds) : Option ε :=
  (sp (tname ++ suffix)).bind (·.entry key)

end Space

/-! ### Containers -/

section

variable {ε : Type} (lim : EncodingLimits)

/-- Whether `getSetOrCreate` makes an array of integers; `peek` is what comes of an object that it
is handed where it expects a text. -/
def SetUpdate.integers (peek : Bool) : SetUpdate → Bool
  | create (some x) => RedisObj.isInteger x
  | create none => peek
  | add x => RedisObj.isInteger x
  | remove x => RedisObj.isInteger x

/-- The update of an object as a set; `none` for a panic. -/
def SetUpdate.onObj (o : RedisObj ε) : SetUpdate → Option (RedisObj ε)
  | create _ => some o
  | add x => o.setTypeAdd lim x
  | remove x => o.setTypeRemove x

/-- `getSetOrCreate` at the key `k`, and an update; `none` for a panic. -/
def updateSet (peek : Sds → Bool) (k : Sds) (u : SetUpdate) (o : Option (RedisObj ε)) :
    Option (RedisObj ε) :=
  u.onObj lim (o.getD (if u.integers (peek k) then .createIntsetObject else .createSetObject))

/-- The element that `getZsetOrCreate` is handed. -/
def ZsetUpdate.element : ZsetUpdate → Sds
  | add _ x => x
  | del x => x

/-- The update of an object as a sorted set; `none` for a panic. -/
def ZsetUpdate.onObj (read : Sds → ℚ) (o : RedisObj ε) : ZsetUpdate → Option (RedisObj ε)
  | add score x => o.zsetAdd lim read score x
  | del x => o.zsetDel x

/-- `getZsetOrCreate`, and an update; `none` for a panic. -/
def updateZset (read : Sds → ℚ) (u : ZsetUpdate) (o : Option (RedisObj ε)) :
    Option (RedisObj ε) :=
  u.onObj lim read <| o.getD <| .create .zset <|
    if lim.zsetMaxZiplistEntries = 0 ∨ lim.zsetMaxZiplistValue < u.element.length then .skiplist
    else .ziplist

end

/-! ### Servers -/

section

variable {V U ε : Type}

/-- What a server holds, as its handlers access it: a key space with containers of which `view` is
seen and to which `update` is done, and with their tables. It is nothing once an operation has
panicked or followed a bad pointer. -/
def Held (_ : EncodingLimits) (_ : Sds) (_ : RedisObj ε → V)
    (_ : Sds → U → Option (RedisObj ε) → Option (RedisObj ε)) : Type := Option (Space ε)

instance (lim : EncodingLimits) (suffix : Sds) (view : RedisObj ε → V)
    (update : Sds → U → Option (RedisObj ε) → Option (RedisObj ε)) :
    Tables (Held lim suffix view update) Sds Sds V U ε where
  view s k := Option.bind s fun sp => (sp k).map view
  update s k u := Option.bind s fun sp =>
    (update k u (sp k)).map fun o => Function.update sp k (some o)
  get fresh s n x :=
    match Option.bind s fun sp => sp.htGet lim suffix fresh n x with
    | some (e, sp) => (e, some sp)
    | none => (fresh, none)
  find s n x :=
    match Option.bind s fun sp => sp.htFind suffix n x with
    | some o => (o, s)
    | none => (none, none)
  put s n x e := Option.bind s fun sp => sp.htPut lim suffix n x e

end

/-- What a server holds as it reads: the sets at its keys, and the metadata in their tables. A
server that has died holds nothing. -/
def readSets {ε : Type} (suffix : Sds) (s : Option (Space ε)) : SetDb ε :=
  s.elim .empty fun sp => ⟨fun k => (sp k).map RedisObj.asRObj, sp.table suffix⟩

/-- The same for sorted sets. -/
def readZsets {ε : Type} (read : Sds → ℚ) (suffix : Sds) (s : Option (Space ε)) : ZDb ε :=
  s.elim .empty fun sp => ⟨fun k => (sp k).map (RedisObj.asZObj read), sp.table suffix⟩

end RemoveWin
