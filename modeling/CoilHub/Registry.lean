import CoilHub.Address.Map

namespace CoilHub

structure Listener (η κ : Type) where
  handle : η
  interest : AddressSet
  reaction : κ

-- Each listener is known by its handle, and the listeners stand in the order in which their handles came.
structure Registry (η κ : Type) where
  listeners : List (Listener η κ) := []

namespace Registry

variable {η κ : Type} [DecidableEq η]

-- A listener takes the place of the one with its handle, or the last place.
def place (l : Listener η κ) : List (Listener η κ) → List (Listener η κ)
  | [] => [l]
  | m :: rest => if m.handle = l.handle then l :: rest else m :: place l rest

def register (r : Registry η κ) (l : Listener η κ) : Registry η κ := ⟨place l r.listeners⟩

def deregister (r : Registry η κ) (handle : η) : Registry η κ :=
  ⟨r.listeners.filter (·.handle ≠ handle)⟩

def contains (r : Registry η κ) (handle : η) : Bool := r.listeners.any (·.handle = handle)

def size (r : Registry η κ) : Nat := r.listeners.length

-- The registry without a handle, and whether it has become shorter.
def dismiss (r : Registry η κ) (handle : η) : Bool × Registry η κ :=
  let left := r.deregister handle
  (left.size != r.size, left)

def isEmpty (r : Registry η κ) : Bool := r.listeners.isEmpty

def watching (r : Registry η κ) (a : Address) : List (Listener η κ) :=
  r.listeners.filter (·.interest.contains a)

-- The reactions of those who watch an address.
def watchers (r : Registry η κ) (a : Address) : List κ := (r.watching a).map (·.reaction)

-- The reactions of all.
def reactions (r : Registry η κ) : List κ := r.listeners.map (·.reaction)

theorem contains_iff {r : Registry η κ} {handle : η} :
    r.contains handle = true ↔ ∃ l ∈ r.listeners, l.handle = handle := by
  simp [contains]

-- Placing a listener keeps the order of the handles. A new handle comes last.
theorem handles_place (l : Listener η κ) (ls : List (Listener η κ)) :
    (place l ls).map (·.handle)
      = if l.handle ∈ ls.map (·.handle) then ls.map (·.handle)
        else ls.map (·.handle) ++ [l.handle] := by
  induction ls with
  | nil => simp [place]
  | cons m rest ih =>
    simp only [place]
    split
    case isTrue h => simp [h]
    case isFalse h => simp only [List.map_cons, ih, List.mem_cons]; grind

theorem contains_register (r : Registry η κ) (l : Listener η κ) (handle : η) :
    (r.register l).contains handle = (decide (handle = l.handle) || r.contains handle) := by
  have hmem : ∀ ls : List (Listener η κ), (ls.any (·.handle = handle))
      = decide (handle ∈ ls.map (·.handle)) := by
    intro ls
    induction ls with
    | nil => rfl
    | cons m rest ih => simp only [List.any_cons, ih, List.map_cons, List.mem_cons]; grind
  simp only [contains, register, hmem, handles_place]
  grind

theorem contains_deregister (r : Registry η κ) (handle other : η) :
    (r.deregister handle).contains other = (decide (other ≠ handle) && r.contains other) := by
  simp only [contains, deregister, List.any_filter]
  induction r.listeners with
  | nil => simp
  | cons m rest ih => simp only [List.any_cons, ih]; grind

end Registry

end CoilHub
