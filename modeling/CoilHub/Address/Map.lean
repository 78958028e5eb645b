import CoilHub.Address

namespace CoilHub

-- A finite set of addresses. It is a list in rising order, and so is a finite map, so that two with the
-- same contents are equal.
structure AddressSet where
  elems : List Address
  sorted : elems.Pairwise (· < ·) := by decide
deriving DecidableEq

namespace AddressSet

def empty : AddressSet := ⟨[], .nil⟩

def insertInto (a : Address) : List Address → List Address
  | [] => [a]
  | b :: rest =>
    if a < b then a :: b :: rest
    else if a = b then b :: rest
    else b :: insertInto a rest

theorem mem_insertInto {a b : Address} {l : List Address} :
    b ∈ insertInto a l ↔ b = a ∨ b ∈ l := by
  induction l with
  | nil => simp [insertInto]
  | cons c rest ih =>
    simp only [insertInto]
    split
    · simp
    · split
      case isTrue h => subst h; simp
      case isFalse => simp only [List.mem_cons, ih]; grind

theorem sorted_insertInto (a : Address) {l : List Address} (h : l.Pairwise (· < ·)) :
    (insertInto a l).Pairwise (· < ·) := by
  induction l with
  | nil => simp [insertInto]
  | cons b rest ih =>
    obtain ⟨hb, hrest⟩ := List.pairwise_cons.1 h
    simp only [insertInto]
    split
    case isTrue hab =>
      refine List.pairwise_cons.2 ⟨fun c hc => ?_, h⟩
      cases hc with
      | head => exact hab
      | tail _ hc => exact Address.lt_trans hab (hb c hc)
    case isFalse hab =>
      split
      · exact h
      case isFalse hne =>
        refine List.pairwise_cons.2 ⟨fun c hc => ?_, ih hrest⟩
        cases mem_insertInto.1 hc with
        | inl hc => exact hc ▸ ((Address.lt_trichotomy a b).resolve_left hab).resolve_left hne
        | inr hc => exact hb c hc

def insert (a : Address) (s : AddressSet) : AddressSet :=
  ⟨insertInto a s.elems, sorted_insertInto a s.sorted⟩

def ofList (l : List Address) : AddressSet := l.foldr insert empty

def size (s : AddressSet) : Nat := s.elems.length

def contains (s : AddressSet) (a : Address) : Bool := s.elems.contains a

instance : Membership Address AddressSet where
  mem s a := a ∈ s.elems

theorem mem_def {a : Address} {s : AddressSet} : a ∈ s ↔ a ∈ s.elems := .rfl

theorem contains_iff {a : Address} {s : AddressSet} : s.contains a = true ↔ a ∈ s := by
  simp [contains, mem_def]

theorem mem_insert {a b : Address} {s : AddressSet} : b ∈ s.insert a ↔ b = a ∨ b ∈ s :=
  mem_insertInto

theorem mem_ofList {a : Address} {l : List Address} : a ∈ ofList l ↔ a ∈ l := by
  induction l with
  | nil => simp [ofList, empty, mem_def]
  | cons b rest ih =>
    rw [ofList, List.foldr_cons, mem_insert, List.mem_cons]
    exact or_congr_right ih

end AddressSet

structure AddressMap (α : Type) where
  entries : List (Address × α)
  sorted : (entries.map Prod.fst).Pairwise (· < ·) := by decide

namespace AddressMap

variable {α : Type}

def empty : AddressMap α := ⟨[], .nil⟩

instance : Inhabited (AddressMap α) := ⟨empty⟩

def insertInto (a : Address) (x : α) : List (Address × α) → List (Address × α)
  | [] => [(a, x)]
  | (b, y) :: rest =>
    if a < b then (a, x) :: (b, y) :: rest
    else if a = b then (a, x) :: rest
    else (b, y) :: insertInto a x rest

theorem keys_insertInto (a : Address) (x : α) (l : List (Address × α)) :
    (insertInto a x l).map Prod.fst = AddressSet.insertInto a (l.map Prod.fst) := by
  induction l with
  | nil => rfl
  | cons entry rest ih =>
    simp only [insertInto, List.map_cons, AddressSet.insertInto]
    split
    · rfl
    · split
      case isTrue h => simp [h]
      case isFalse => simp [ih]

def insert (a : Address) (x : α) (m : AddressMap α) : AddressMap α :=
  ⟨insertInto a x m.entries, by
    rw [keys_insertInto]
    exact AddressSet.sorted_insertInto a m.sorted⟩

def get? (m : AddressMap α) (a : Address) : Option α := m.entries.lookup a

def contains (m : AddressMap α) (a : Address) : Bool := (m.get? a).isSome

def keys (m : AddressMap α) : List Address := m.entries.map Prod.fst

def size (m : AddressMap α) : Nat := m.entries.length

def isEmpty (m : AddressMap α) : Bool := m.entries.isEmpty

def map (f : α → β) (m : AddressMap α) : AddressMap β :=
  ⟨m.entries.map fun entry => (entry.1, f entry.2), by
    simpa [Function.comp_def] using m.sorted⟩

@[simp] theorem get?_empty (a : Address) : (empty : AddressMap α).get? a = none := rfl

theorem lookup_insertInto (a b : Address) (x : α) (l : List (Address × α)) :
    (insertInto a x l).lookup b = if b = a then some x else l.lookup b := by
  induction l with
  | nil => simp [insertInto, List.lookup_cons]; grind
  | cons entry rest ih =>
    obtain ⟨c, y⟩ := entry
    simp only [insertInto]
    split
    · simp only [List.lookup_cons]; grind
    · split
      · simp only [List.lookup_cons]; grind
      · simp only [List.lookup_cons, ih]; grind

theorem get?_insert (a b : Address) (x : α) (m : AddressMap α) :
    (m.insert a x).get? b = if b = a then some x else m.get? b :=
  lookup_insertInto a b x m.entries

theorem lookup_eq_none {a : Address} {l : List (Address × α)} (h : ∀ b ∈ l.map Prod.fst, a < b) :
    l.lookup a = none := by
  rw [List.lookup_eq_none_iff]
  intro entry hentry
  have hlt := h entry.1 (List.mem_map_of_mem hentry)
  rw [bne_iff_ne]
  rintro rfl
  exact Address.lt_irrefl _ hlt

theorem entries_ext {l l' : List (Address × α)} (hl : (l.map Prod.fst).Pairwise (· < ·))
    (hl' : (l'.map Prod.fst).Pairwise (· < ·)) (h : ∀ a, l.lookup a = l'.lookup a) : l = l' := by
  induction l generalizing l' with
  | nil =>
    cases l' with
    | nil => rfl
    | cons other rest' =>
      obtain ⟨b, y⟩ := other
      simpa using h b
  | cons entry rest ih =>
    obtain ⟨a, x⟩ := entry
    cases l' with
    | nil => simpa using h a
    | cons other rest' =>
      obtain ⟨b, y⟩ := other
      obtain ⟨ha, hrest⟩ := List.pairwise_cons.1 hl
      obtain ⟨hb, hrest'⟩ := List.pairwise_cons.1 hl'
      -- the lower one of two different first addresses would be missing in the other list
      have hab : a = b := by
        rcases Address.lt_trichotomy a b with hlt | heq | hlt
        · have hnone : ((b, y) :: rest').lookup a = none := lookup_eq_none (by
            simpa using ⟨hlt, fun c z hc => Address.lt_trans hlt (hb c (by simpa using ⟨z, hc⟩))⟩)
          simp [← h a] at hnone
        · exact heq
        · have hnone : ((a, x) :: rest).lookup b = none := lookup_eq_none (by
            simpa using ⟨hlt, fun c z hc => Address.lt_trans hlt (ha c (by simpa using ⟨z, hc⟩))⟩)
          simp [h b] at hnone
      subst hab
      obtain rfl : x = y := by simpa using h a
      rw [ih hrest hrest' fun c => ?_]
      by_cases hc : c = a
      · rw [hc, lookup_eq_none ha, lookup_eq_none hb]
      · simpa [List.lookup_cons, beq_eq_false_iff_ne.2 hc] using h c

-- Two maps with the same contents are equal.
theorem ext_get? {m n : AddressMap α} (h : ∀ a, m.get? a = n.get? a) : m = n := by
  obtain ⟨entries, hm⟩ := m
  obtain ⟨others, hn⟩ := n
  obtain rfl : entries = others := entries_ext hm hn h
  rfl

end AddressMap

end CoilHub
