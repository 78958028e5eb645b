import CoilHub.Proofs.Refresh.Inversion

namespace CoilHub

namespace InterestMap

section Order

variable {interests : List AddressSet} {interest : AddressSet} {a b : Address}

theorem eraseDups_of_nodup {l : List Address} (h : l.Nodup) : l.eraseDups = l := by
  induction l using List.reverseRecOn with
  | nil => rfl
  | append_singleton l a ih =>
      obtain ⟨hl, -, hdisjoint⟩ := List.nodup_append.mp h
      have ha : a ∉ l := fun ha => hdisjoint a ha a (by simp) rfl
      rw [eraseDups_concat, if_neg ha, ih hl]

-- One more interest adds those of its addresses that are new, in rising order.
theorem addresses_concat (interests : List AddressSet) (interest : AddressSet) :
    (build (interests ++ [interest])).addresses =
      (build interests).addresses ++
        interest.elems.filter fun a => decide (a ∉ (build interests).addresses) := by
  have hnew : (interest.elems.removeAll (interests.flatMap (·.elems))) =
      interest.elems.filter fun a => decide (a ∉ (build interests).addresses) := by
    refine List.filter_congr fun a _ => ?_
    rw [Bool.eq_iff_iff]
    simp [addresses_build]
  have hnodup := interest.nodup.sublist (List.filter_sublist (p := fun a =>
    decide (a ∉ (build interests).addresses)))
  rw [addresses_build, List.flatMap_append, List.eraseDups_append, ← addresses_build]
  simp only [List.flatMap_cons, List.flatMap_nil, List.append_nil]
  rw [hnew, eraseDups_of_nodup hnodup]

-- The position of the first interest that has an address.
def firstWatcher (interests : List AddressSet) (a : Address) : Nat :=
  interests.findIdx (·.contains a)

-- Whether an address comes up before another one.
def ComesUpBefore (interests : List AddressSet) (a b : Address) : Prop :=
  firstWatcher interests a < firstWatcher interests b ∨
    firstWatcher interests a = firstWatcher interests b ∧ a < b

theorem firstWatcher_lt_iff :
    firstWatcher interests a < interests.length ↔ a ∈ (build interests).addresses := by
  rw [firstWatcher, List.findIdx_lt_length, mem_addresses]
  simp only [AddressSet.contains_iff]

theorem firstWatcher_concat_of_mem (ha : a ∈ (build interests).addresses) :
    firstWatcher (interests ++ [interest]) a = firstWatcher interests a := by
  have hlt := firstWatcher_lt_iff.mpr ha
  unfold firstWatcher at hlt ⊢
  rw [List.findIdx_append, if_pos hlt]

theorem firstWatcher_concat_of_new (hnew : a ∉ (build interests).addresses) (ha : a ∈ interest) :
    firstWatcher (interests ++ [interest]) a = interests.length := by
  have hlt := hnew ∘ firstWatcher_lt_iff.mp
  unfold firstWatcher at hlt ⊢
  rw [List.findIdx_append, if_neg hlt, List.findIdx_singleton, AddressSet.contains_iff.mpr ha]
  simp

theorem addresses_ordered (interests : List AddressSet) :
    (build interests).addresses.Pairwise (ComesUpBefore interests) := by
  induction interests using List.reverseRecOn with
  | nil => exact .nil
  | append_singleton interests interest ih =>
      rw [addresses_concat]
      refine List.pairwise_append.mpr ⟨?_, ?_, ?_⟩
      · refine ih.imp_of_mem fun {a b} ha hb hbefore => ?_
        rw [ComesUpBefore, firstWatcher_concat_of_mem ha, firstWatcher_concat_of_mem hb]
        exact hbefore
      · refine (interest.sorted.sublist List.filter_sublist).imp_of_mem fun {a b} ha hb hlt => ?_
        obtain ⟨ha, hnewa⟩ := List.mem_filter.mp ha
        obtain ⟨hb, hnewb⟩ := List.mem_filter.mp hb
        rw [ComesUpBefore, firstWatcher_concat_of_new (of_decide_eq_true hnewa) ha,
          firstWatcher_concat_of_new (of_decide_eq_true hnewb) hb]
        exact .inr ⟨rfl, hlt⟩
      · intro a ha b hb
        obtain ⟨hb, hnewb⟩ := List.mem_filter.mp hb
        rw [ComesUpBefore, firstWatcher_concat_of_mem ha,
          firstWatcher_concat_of_new (of_decide_eq_true hnewb) hb]
        exact .inl (firstWatcher_lt_iff.mpr ha)

end Order

section Watchers

variable {interests : List AddressSet} {entry : Address × List Nat} {w : Nat}

theorem mem_watchers (h : entry ∈ (build interests).entries) :
    w ∈ entry.2 ↔ ∃ interest, interests[w]? = some interest ∧ entry.1 ∈ interest := by
  rw [watchers_eq h, mem_positions]

theorem rising_watchers (h : entry ∈ (build interests).entries) : entry.2.Pairwise (· < ·) := by
  rw [watchers_eq h]
  exact rising_positions interests entry.1

theorem watchers_ne_nil (h : entry ∈ (build interests).entries) : entry.2 ≠ [] := by
  obtain ⟨interest, hinterest, ha⟩ := mem_addresses.mp (List.mem_map_of_mem h)
  obtain ⟨w, hw⟩ := List.getElem?_of_mem hinterest
  exact List.ne_nil_of_mem ((mem_watchers h).mpr ⟨interest, hw, ha⟩)

-- A listener stands in as many entries as it watches addresses.
theorem countP_watches {interest : AddressSet} (h : interests[w]? = some interest) :
    (build interests).entries.countP (fun entry => entry.2.contains w) = interest.size := by
  let mentioning := (build interests).entries.filter fun entry => entry.2.contains w
  have hmem : ∀ a, a ∈ mentioning.map Prod.fst ↔ a ∈ interest.elems := by
    intro a
    rw [List.mem_map]
    constructor
    · rintro ⟨entry, hentry, rfl⟩
      obtain ⟨hentry, hw⟩ := List.mem_filter.mp hentry
      obtain ⟨interest', h', ha⟩ := (mem_watchers hentry).mp (List.contains_iff_mem.mp hw)
      cases h.symm.trans h'
      exact ha
    · intro ha
      obtain ⟨entry, hentry, rfl⟩ :=
        List.mem_map.mp (mem_addresses.mpr ⟨interest, List.mem_of_getElem? h, ha⟩)
      have hw := (mem_watchers hentry).mpr ⟨interest, h, ha⟩
      exact ⟨entry, List.mem_filter.mpr ⟨hentry, List.contains_iff_mem.mpr hw⟩, rfl⟩
  have hnodup : (mentioning.map Prod.fst).Nodup :=
    (nodup_addresses interests).sublist (List.filter_sublist.map _)
  have hperm := (List.perm_ext_iff_of_nodup hnodup interest.nodup).mpr hmem
  rw [List.countP_eq_length_filter, AddressSet.size, ← hperm.length_eq, List.length_map]

end Watchers

section Table

variable {entries : List (Address × List Nat)} {a : Address} {w place : Nat} {d : Draft}

theorem addWatcher_of_new (h : a ∉ entries.map Prod.fst) :
    addWatcher w a entries = entries ++ [(a, [w])] := by
  induction entries with
  | nil => rfl
  | cons entry rest ih =>
      obtain ⟨b, watchers⟩ := entry
      obtain ⟨hb, hrest⟩ := not_or.mp (List.mem_cons.not.mp h)
      rw [addWatcher, if_neg hb, ih hrest, List.cons_append]

theorem addWatcher_of_first {watchers : List Nat} (h : entries[place]? = some (a, watchers))
    (hfirst : ∀ i < place, (entries.map Prod.fst)[i]? ≠ some a) :
    addWatcher w a entries = entries.set place (a, watchers ++ [w]) := by
  induction entries generalizing place with
  | nil => simp at h
  | cons entry rest ih =>
      obtain ⟨b, others⟩ := entry
      cases place with
      | zero =>
          cases h
          simp [addWatcher]
      | succ place =>
          have hb : a ≠ b := fun heq => hfirst 0 (by omega) (by simp [heq])
          have hrest : ∀ i < place, (rest.map Prod.fst)[i]? ≠ some a :=
            fun i hi => hfirst (i + 1) (by omega)
          rw [addWatcher, if_neg hb, ih (by simpa using h) hrest, List.set_cons_succ]

namespace Draft

-- The table tells just where the entries stand.
def Indexed (d : Draft) : Prop :=
  ∀ a place, d.places.get? a = some place ↔ (d.entries.map Prod.fst)[place]? = some a

theorem Indexed.not_mem (h : d.Indexed) (hnone : d.places.get? a = none) : a ∉ d.entries.map Prod.fst := by
  intro hmem
  obtain ⟨place, hplace⟩ := List.getElem?_of_mem hmem
  rw [(h a place).mpr hplace] at hnone
  cases hnone

theorem Indexed.append (h : d.Indexed) (hnone : d.places.get? a = none) (watchers : List Nat) :
    Indexed { entries := d.entries ++ [(a, watchers)], places := d.places.insert a d.entries.length } := by
  intro b place
  have hnew := h.not_mem hnone
  simp only [AddressMap.get?_insert, List.map_append, List.map_cons, List.map_nil, getElem?_concat,
    List.length_map]
  by_cases hb : b = a
  · subst hb
    have hgone : (d.entries.map Prod.fst)[place]? ≠ some b := fun hb => hnew (List.mem_of_getElem? hb)
    rw [if_pos rfl, or_iff_right hgone]
    simp [eq_comm]
  · simp [hb, Ne.symm hb, h b place]

-- Every place in the table is the place of an entry, so the watcher is added where it belongs.
theorem Indexed.addWatcher (h : d.Indexed) (w : Nat) (a : Address) :
    ∃ d', d.addWatcher w a = some d' ∧ d'.Indexed ∧
      d'.entries = InterestMap.addWatcher w a d.entries := by
  cases hplace : d.places.get? a with
  | none =>
      refine ⟨_, ?_, h.append hplace [w], (addWatcher_of_new (h.not_mem hplace)).symm⟩
      simp [Draft.addWatcher, place, hplace]
  | some place =>
      have hkey := (h a place).mp hplace
      rw [List.getElem?_map, Option.map_eq_some_iff] at hkey
      obtain ⟨⟨b, watchers⟩, hentry, rfl⟩ := hkey
      have hfirst : ∀ i < place, (d.entries.map Prod.fst)[i]? ≠ some b := by
        intro i hi hother
        have heq := (h b i).mpr hother
        rw [hplace] at heq
        cases heq
        omega
      refine ⟨{ d with entries := d.entries.set place (b, watchers ++ [w]) }, ?_, ?_,
        (addWatcher_of_first hentry hfirst).symm⟩
      · simp [Draft.addWatcher, Draft.place, hplace, hentry]
      · intro c i
        have hkeys : (d.entries.set place (b, watchers ++ [w])).map Prod.fst = d.entries.map Prod.fst := by
          rw [← addWatcher_of_first hentry hfirst, keys_addWatcher, if_pos]
          exact List.mem_map_of_mem (List.mem_of_getElem? hentry)
        rw [hkeys]
        exact h c i

theorem Indexed.addListener (h : d.Indexed) (interest : AddressSet) (w : Nat) :
    ∃ d', addListener w interest.elems d = some d' ∧ d'.Indexed ∧
      d'.entries = InterestMap.addListener d.entries interest w := by
  unfold InterestMap.addListener
  generalize interest.elems = elems
  induction elems generalizing d with
  | nil => exact ⟨d, rfl, h, rfl⟩
  | cons a rest ih =>
      obtain ⟨next, hnext, hindexed, hentries⟩ := h.addWatcher w a
      obtain ⟨last, hlast, hdone⟩ := ih hindexed
      rw [hentries] at hdone
      exact ⟨last, by rw [Draft.addListener, hnext]; exact hlast, hdone⟩

theorem Indexed.addAll (h : d.Indexed) (interests : List AddressSet) (w : Nat) :
    ∃ d', addAll interests w d = some d' ∧ d'.entries = InterestMap.addAll d.entries interests w := by
  induction interests generalizing d w with
  | nil => exact ⟨d, rfl, rfl⟩
  | cons interest rest ih =>
      obtain ⟨next, hnext, hindexed, hentries⟩ := h.addListener interest w
      obtain ⟨last, hlast, hdone⟩ := ih hindexed (w + 1)
      rw [hentries] at hdone
      exact ⟨last, by rw [Draft.addAll, hnext]; exact hlast, hdone⟩

end Draft

theorem tabulate?_eq (interests : List AddressSet) : tabulate? interests = some (build interests) := by
  have hempty : Draft.Indexed {} := by
    intro a place
    simp
  obtain ⟨d, hd, hentries⟩ := hempty.addAll interests 0
  rw [tabulate?, hd, Option.map_some, hentries]
  rfl

end Table

-- What the map of some interests is.
structure Inverts (m : InterestMap) (interests : List AddressSet) : Prop where
  distinct : m.addresses.Nodup
  union : ∀ a, a ∈ m.addresses ↔ ∃ interest ∈ interests, a ∈ interest
  ordered : m.addresses.Pairwise (ComesUpBefore interests)
  rising : ∀ entry ∈ m.entries, entry.2.Pairwise (· < ·)
  watchers : ∀ entry ∈ m.entries, ∀ w,
    w ∈ entry.2 ↔ ∃ interest, interests[w]? = some interest ∧ entry.1 ∈ interest
  watched : ∀ entry ∈ m.entries, entry.2 ≠ []
  counted : ∀ w interest, interests[w]? = some interest →
    m.entries.countP (fun entry => entry.2.contains w) = interest.size

-- The map is exact, and the table leads to no other one.
theorem build_inverts (interests : List AddressSet) :
    (build interests).Inverts interests ∧ tabulate? interests = some (build interests) where
  left :=
    { distinct := nodup_addresses interests
      union := fun _ => mem_addresses
      ordered := addresses_ordered interests
      rising := fun _ => rising_watchers
      watchers := fun _ hentry _ => mem_watchers hentry
      watched := fun _ => watchers_ne_nil
      counted := fun _ _ => countP_watches }
  right := tabulate?_eq interests

-- The second listener adds only the address that the first one does not watch.
example : (build [.ofList [5, 3], .ofList [3, 1]]).entries = [(3, [0, 1]), (5, [0]), (1, [1])] := by
  decide

end InterestMap

end CoilHub
