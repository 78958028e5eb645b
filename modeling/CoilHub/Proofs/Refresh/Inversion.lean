import CoilHub.InterestMap
import Mathlib.Data.List.Induction

namespace CoilHub

theorem getElem?_concat {α : Type} {l : List α} {x y : α} {i : Nat} :
    (l ++ [x])[i]? = some y ↔ l[i]? = some y ∨ i = l.length ∧ x = y := by
  grind

theorem AddressSet.nodup (s : AddressSet) : s.elems.Nodup := by
  apply s.sorted.imp
  rintro a _ hlt rfl
  exact Address.lt_irrefl a hlt

namespace InterestMap

-- The positions of the interests that have an address, in rising order, counted from `first`.
def positions (interests : List AddressSet) (a : Address) (first : Nat) : List Nat :=
  ((interests.zipIdx first).filter (·.1.contains a)).map Prod.snd

def watchersOf (entries : List (Address × List Nat)) (a : Address) : List Nat :=
  (entries.lookup a).getD []

theorem lookup_cons {α : Type} (a b : Address) (x : α) (l : List (Address × α)) :
    ((b, x) :: l).lookup a = if a = b then some x else l.lookup a := by
  rw [List.lookup_cons]
  by_cases hab : a = b
  · simp [hab]
  · simp [beq_eq_false_iff_ne.mpr hab, hab]

theorem eraseDups_concat (l : List Address) (a : Address) :
    (l ++ [a]).eraseDups = if a ∈ l then l.eraseDups else l.eraseDups ++ [a] := by
  rw [List.eraseDups_append]
  by_cases ha : a ∈ l
  · simp [List.removeAll, ha]
  · simp [List.removeAll, ha, List.eraseDups_cons]

theorem nodup_eraseDups (l : List Address) : l.eraseDups.Nodup := by
  induction l using List.reverseRecOn with
  | nil => exact .nil
  | append_singleton l a ih =>
      rw [eraseDups_concat]
      by_cases ha : a ∈ l
      · rwa [if_pos ha]
      · rw [if_neg ha]
        refine List.nodup_append.mpr ⟨ih, by simp, ?_⟩
        intro b hb c hc heq
        rw [List.mem_singleton.mp hc] at heq
        exact ha (List.mem_eraseDups.mp (heq ▸ hb))

theorem keys_addWatcher (w : Nat) (a : Address) (entries : List (Address × List Nat)) :
    (addWatcher w a entries).map Prod.fst =
      if a ∈ entries.map Prod.fst then entries.map Prod.fst else entries.map Prod.fst ++ [a] := by
  induction entries with
  | nil => simp [addWatcher]
  | cons entry rest ih =>
      obtain ⟨b, watchers⟩ := entry
      unfold addWatcher
      by_cases hab : a = b
      · simp [hab]
      · rw [if_neg hab, List.map_cons, ih]
        by_cases ha : a ∈ rest.map Prod.fst
        · simp [ha]
        · simp [ha, hab]

theorem watchersOf_addWatcher (w : Nat) (a b : Address) (entries : List (Address × List Nat)) :
    watchersOf (addWatcher w a entries) b =
      if b = a then watchersOf entries b ++ [w] else watchersOf entries b := by
  induction entries with
  | nil =>
      by_cases hba : b = a
      · simp [addWatcher, watchersOf, hba]
      · simp [addWatcher, watchersOf, lookup_cons, hba]
  | cons entry rest ih =>
      obtain ⟨c, watchers⟩ := entry
      unfold addWatcher
      unfold watchersOf at ih ⊢
      by_cases hac : a = c
      · subst hac
        by_cases hba : b = a
        · simp [hba]
        · simp [lookup_cons, hba]
      · rw [if_neg hac, lookup_cons, lookup_cons]
        by_cases hbc : b = c
        · simp [hbc, Ne.symm hac]
        · simpa [hbc] using ih

-- The entries list the addresses brought up so far.
def Lists (entries : List (Address × List Nat)) (addresses : List Address) : Prop :=
  entries.map Prod.fst = addresses.eraseDups

theorem Lists.addWatcher {entries : List (Address × List Nat)} {addresses : List Address}
    (h : Lists entries addresses) (w : Nat) (a : Address) :
    Lists (addWatcher w a entries) (addresses ++ [a]) := by
  unfold Lists at h ⊢
  rw [keys_addWatcher, eraseDups_concat, h]
  simp only [List.mem_eraseDups]

theorem Lists.addListener {entries : List (Address × List Nat)} {addresses : List Address}
    (h : Lists entries addresses) (interest : AddressSet) (w : Nat) :
    Lists (addListener entries interest w) (addresses ++ interest.elems) := by
  unfold InterestMap.addListener
  generalize interest.elems = elems
  induction elems generalizing entries addresses with
  | nil => simpa using h
  | cons a rest ih => simpa using ih (h.addWatcher w a)

theorem Lists.addAll {entries : List (Address × List Nat)} {addresses : List Address}
    (h : Lists entries addresses) (interests : List AddressSet) (first : Nat) :
    Lists (addAll entries interests first) (addresses ++ interests.flatMap (·.elems)) := by
  induction interests generalizing entries addresses first with
  | nil => simpa [InterestMap.addAll] using h
  | cons interest rest ih =>
      simpa [InterestMap.addAll] using ih (h.addListener interest first) (first + 1)

theorem watchersOf_addListener (entries : List (Address × List Nat)) (interest : AddressSet)
    (w : Nat) (a : Address) :
    watchersOf (addListener entries interest w) a =
      if interest.contains a then watchersOf entries a ++ [w] else watchersOf entries a := by
  have hnodup := interest.nodup
  unfold addListener AddressSet.contains
  revert hnodup
  generalize interest.elems = elems
  intro hnodup
  induction elems generalizing entries with
  | nil => simp
  | cons b rest ih =>
      obtain ⟨hb, hrest⟩ := List.nodup_cons.mp hnodup
      rw [List.foldl_cons, ih _ hrest, watchersOf_addWatcher]
      by_cases hab : a = b
      · subst hab
        simp [hb]
      · simp [hab]

theorem watchersOf_addAll (interests : List AddressSet) (entries : List (Address × List Nat))
    (first : Nat) (a : Address) :
    watchersOf (addAll entries interests first) a =
      watchersOf entries a ++ positions interests a first := by
  induction interests generalizing entries first with
  | nil => simp [addAll, positions]
  | cons interest rest ih =>
      unfold addAll
      rw [ih, watchersOf_addListener]
      by_cases ha : interest.contains a
      · simp [positions, ha]
      · simp [positions, ha]

theorem mem_positions {interests : List AddressSet} {a : Address} {w : Nat} :
    w ∈ positions interests a 0 ↔ ∃ interest, interests[w]? = some interest ∧ a ∈ interest := by
  simp [positions, List.mem_zipIdx_iff_getElem?, AddressSet.contains_iff]

theorem rising_positions (interests : List AddressSet) (a : Address) :
    (positions interests a 0).Pairwise (· < ·) := by
  have hsub : (positions interests a 0).Sublist ((interests.zipIdx).map Prod.snd) :=
    List.filter_sublist.map _
  rw [List.zipIdx_map_snd] at hsub
  exact List.Pairwise.sublist hsub List.pairwise_lt_range'

-- First come the addresses of the first interest, then those that the second one adds, and so on.
theorem addresses_build (interests : List AddressSet) :
    (build interests).addresses = (interests.flatMap (·.elems)).eraseDups := by
  have hnone : Lists [] [] := rfl
  exact hnone.addAll interests 0

theorem nodup_addresses (interests : List AddressSet) : (build interests).addresses.Nodup := by
  rw [addresses_build]
  exact nodup_eraseDups _

theorem mem_addresses {interests : List AddressSet} {a : Address} :
    a ∈ (build interests).addresses ↔ ∃ interest ∈ interests, a ∈ interest := by
  rw [addresses_build, List.mem_eraseDups, List.mem_flatMap]
  rfl

theorem lookup_of_mem {α : Type} {l : List (Address × α)} (h : (l.map Prod.fst).Nodup)
    {a : Address} {x : α} (hmem : (a, x) ∈ l) : l.lookup a = some x := by
  induction l with
  | nil => cases hmem
  | cons entry rest ih =>
      obtain ⟨b, y⟩ := entry
      rw [List.map_cons, List.nodup_cons] at h
      rw [lookup_cons]
      rcases List.mem_cons.mp hmem with heq | hrest
      · cases heq
        simp
      · have hab : a ≠ b := by
          rintro rfl
          exact h.1 (List.mem_map.mpr ⟨_, hrest, rfl⟩)
        rw [if_neg hab]
        exact ih h.2 hrest

-- The watchers of an address are the positions of the interests that have it.
theorem watchers_eq {interests : List AddressSet} {a : Address} {watchers : List Nat}
    (h : (a, watchers) ∈ (build interests).entries) : watchers = positions interests a 0 := by
  have hlookup := lookup_of_mem (nodup_addresses interests) h
  have hwatchers := watchersOf_addAll interests [] 0 a
  have hentries : addAll [] interests 0 = (build interests).entries := rfl
  rw [hentries, watchersOf, hlookup] at hwatchers
  simpa [watchersOf] using hwatchers

end InterestMap

end CoilHub
