import CoilHub.Address.Map
import CoilHub.Value

namespace CoilHub

-- A value as it was last read or acknowledged, with the address that it belongs to.
structure CachedValue where
  address : Address
  value : CoilValue
deriving DecidableEq

instance : Coe CachedValue CoilValue := ⟨CachedValue.value⟩

-- Every value has the revision under which it was asked for, and an older revision never replaces a newer
-- one.
structure CacheEntry extends CachedValue where
  revision : UInt64
deriving DecidableEq

structure Cache where
  entries : AddressMap CacheEntry := .empty
  -- how many revisions have been handed out
  issued : UInt64 := 0

namespace Cache

-- The next revision, and the cache that has handed it out.
def nextRevision (c : Cache) : UInt64 × Cache := (c.issued + 1, { c with issued := c.issued + 1 })

-- Stores a value, unless the cache holds one of the same or a newer revision.
def store? (c : Cache) (revision : UInt64) (a : Address) (value : CoilValue) : Option Cache :=
  let stored := { c with entries := c.entries.insert a { revision, address := a, value } }
  match c.entries.get? a with
  | none => some stored
  | some existing => if revision ≤ existing.revision then none else some stored

-- The same, with what is told to whoever offers the value: the new entry, or nothing.
def store (c : Cache) (revision : UInt64) (a : Address) (value : CoilValue) :
    Option CachedValue × Cache :=
  match c.store? revision a value with
  | some stored => (some { address := a, value }, stored)
  | none => (none, c)

def get? (c : Cache) (a : Address) : Option CoilValue := (c.entries.get? a).map (·.value)

def contains (c : Cache) (a : Address) : Bool := c.entries.contains a

def size (c : Cache) : Nat := c.entries.size

def isEmpty (c : Cache) : Bool := c.entries.isEmpty

def values (c : Cache) : List (Address × CoilValue) :=
  c.entries.entries.map fun entry => (entry.1, entry.2.value)

theorem contains_eq (c : Cache) (a : Address) : c.contains a = (c.get? a).isSome := by
  simp [contains, get?, AddressMap.contains]

theorem get?_of_store? {c d : Cache} {revision : UInt64} {a : Address} {value : CoilValue}
    (h : c.store? revision a value = some d) (b : Address) :
    d.get? b = if b = a then some value else c.get? b := by
  have hd : d = { c with entries := c.entries.insert a { revision, address := a, value } } := by
    simp only [store?] at h
    grind
  subst hd
  simp only [get?, AddressMap.get?_insert]
  split <;> rfl

end Cache

end CoilHub
