import SqlDdl.Grammar.Table
import SqlDdl.Config
/-!
# A cache of parsed statements

Parsed statements are kept in a least-recently-used store, under their text with White_Space
trimmed from both ends. A text found in the store gives the statement kept for it; any other text
is parsed, and if it is a statement, that statement is put in the store. Texts that are no
statement are not kept.

The store is not part of this library: a cache takes its operations as a parameter
(`LruStore`), and what a theorem assumes of them is stated beside it as a hypothesis.
`ListLru` is a store kept as a list, the most recently used entry first, which the cache can be
run with.

A kept statement is shared by reference. Each statement the cache keeps is a new share, and
shares are numbered in order, so that a later answer from the store can be told to be that very
share.
-/

namespace SqlDdl

/-- The operations of a store of values under keys that a cache uses: a new store of a given
capacity, a lookup that may change which entry counts as recently used, putting a value under a
key, the number of entries, whether there are none, and emptying the store. -/
structure LruStore (σ κ ν : Type) where
  new : Nat → σ
  get : σ → κ → Option ν × σ
  put : σ → κ → ν → σ
  len : σ → Nat
  isEmpty : σ → Bool
  clear : σ → σ

namespace LruList

variable {κ ν : Type} [DecidableEq κ]

/-- The value kept under `k`, with its entry brought to the front; none, and the entries as they
were, when nothing is kept under `k`. -/
def get (l : List (κ × ν)) (k : κ) : Option ν × List (κ × ν) :=
  match l.find? (·.1 == k) with
  | some e => (some e.2, e :: l.filter (·.1 != k))
  | none => (none, l)

/-- The entries with `v` put under `k` in front. An entry already under `k` gives way to it;
otherwise, when `cap` entries are kept, the last one does. -/
def put (cap : Nat) (l : List (κ × ν)) (k : κ) (v : ν) : List (κ × ν) :=
  if l.any (·.1 == k) then (k, v) :: l.filter (·.1 != k)
  else (k, v) :: if l.length = cap then l.dropLast else l

end LruList

/-- A least-recently-used store kept as a list of entries, the most recently used first. -/
structure ListLru (κ ν : Type) where
  capacity : Nat
  entries : List (κ × ν)

namespace ListLru

variable {κ ν : Type} [DecidableEq κ]

/-- The operations of a store kept as a list. -/
def store : LruStore (ListLru κ ν) κ ν where
  new capacity := ⟨capacity, []⟩
  get s k := ((LruList.get s.entries k).1, { s with entries := (LruList.get s.entries k).2 })
  put s k v := { s with entries := LruList.put s.capacity s.entries k v }
  len s := s.entries.length
  isEmpty s := s.entries.isEmpty
  clear s := { s with entries := [] }

end ListLru

/-- A statement shared by reference, with the number of its share. -/
structure Shared where
  statement : Statement
  serial : Nat
  deriving Repr

/-- What a cache answers for a text. -/
inductive CacheAnswer where
  /-- The share kept for the text. -/
  | hit (statement : Statement) (serial : Nat)
  /-- A statement parsed now and kept as a new share. -/
  | miss (statement : Statement) (serial : Nat)
  /-- The text is no statement. -/
  | failed (e : ParseError)
  deriving Repr

/-- A cache of parsed statements over a store of type `σ`. -/
structure StatementCache (σ : Type) where
  store : σ
  dialect : Dialect
  /-- How many shares have been made so far, and so the number of the next. -/
  shared : Nat

namespace StatementCache

variable {σ : Type} (lru : LruStore σ String Shared)

/-- An empty cache for a configuration. -/
def new (c : ParserConfig) : StatementCache σ :=
  ⟨lru.new c.effectiveCapacity, c.dialect, 0⟩

/-- The statement of a text, from the store or parsed now, and the cache after it. -/
def parse (cache : StatementCache σ) (sql : String) : CacheAnswer × StatementCache σ :=
  let key := Text.trimWhiteSpace sql
  match lru.get cache.store key with
  | (some v, store) => (.hit v.statement v.serial, { cache with store })
  | (none, store) =>
    match SqlDdl.parse cache.dialect key with
    | .error err => (.failed err, { cache with store })
    | .ok st =>
      (.miss st cache.shared,
        { cache with store := lru.put store key ⟨st, cache.shared⟩, shared := cache.shared + 1 })

/-- The number of kept statements. -/
def size (cache : StatementCache σ) : Nat := lru.len cache.store

/-- Whether no statement is kept. -/
def isEmpty (cache : StatementCache σ) : Bool := lru.isEmpty cache.store

/-- The cache with no statement kept. -/
def clear (cache : StatementCache σ) : StatementCache σ :=
  { cache with store := lru.clear cache.store }

end StatementCache

end SqlDdl
