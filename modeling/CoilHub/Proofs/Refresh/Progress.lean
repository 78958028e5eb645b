import CoilHub.Hub.Cycle
import CoilHub.Proofs.Refresh.Inversion

namespace CoilHub

namespace Listener

variable {η κ : Type}

def touches (l : Listener η κ) (addresses : List Address) : Bool :=
  l.interest.elems.any fun a => decide (a ∈ addresses)

def missing (l : Listener η κ) (addresses : List Address) : Nat :=
  l.interest.elems.countP fun a => decide (a ∉ addresses)

theorem touches_iff {l : Listener η κ} {addresses : List Address} :
    l.touches addresses = true ↔ ∃ a ∈ l.interest, a ∈ addresses := by
  simp [touches, AddressSet.mem_def]

theorem missing_eq_zero_iff {l : Listener η κ} {addresses : List Address} :
    l.missing addresses = 0 ↔ ∀ a ∈ l.interest, a ∈ addresses := by
  simp [missing, AddressSet.mem_def]

theorem touches_concat (l : Listener η κ) (addresses : List Address) (a : Address) :
    l.touches (addresses ++ [a]) = (l.interest.contains a || l.touches addresses) := by
  rw [Bool.eq_iff_iff, Bool.or_eq_true, touches_iff, touches_iff, AddressSet.contains_iff]
  constructor
  · rintro ⟨b, hb, hmem⟩
    rcases List.mem_append.mp hmem with hold | hnew
    · exact .inr ⟨b, hb, hold⟩
    · exact .inl (List.mem_singleton.mp hnew ▸ hb)
  · rintro (ha | ⟨b, hb, hold⟩)
    · exact ⟨a, ha, by simp⟩
    · exact ⟨b, hb, List.mem_append_left _ hold⟩

-- An address that comes new makes one fewer missing, for those who watch it.
theorem missing_concat (l : Listener η κ) {addresses : List Address} {a : Address}
    (ha : a ∉ addresses) :
    l.missing addresses = l.missing (addresses ++ [a]) + if l.interest.contains a then 1 else 0 := by
  have hnodup := l.interest.nodup
  unfold missing AddressSet.contains
  revert hnodup
  generalize l.interest.elems = elems
  intro hnodup
  induction elems with
  | nil => rfl
  | cons b rest ih =>
      obtain ⟨hb, hrest⟩ := List.nodup_cons.mp hnodup
      have hih := ih hrest
      rw [List.countP_cons, List.countP_cons]
      by_cases hab : a = b
      · subst hab
        have hnot : rest.contains a = false := by simpa using hb
        rw [hih, hnot]
        simp [ha]
      · by_cases hin : b ∈ addresses
        · rw [hih]
          simp [hin, hab]
        · rw [hih]
          simp [hin, hab, Ne.symm hab]
          omega

end Listener

namespace Cycle

variable {η κ : Type}

theorem getElem?_countDown {watchers : List Nat} (h : watchers.Nodup) (counts : List Nat)
    (w : Nat) :
    (countDown counts watchers)[w]? =
      counts[w]?.map fun n => if w ∈ watchers then n - 1 else n := by
  unfold countDown
  induction watchers generalizing counts with
  | nil => simp
  | cons v rest ih =>
      obtain ⟨hv, hrest⟩ := List.nodup_cons.mp h
      rw [List.foldl_cons, ih hrest, List.getElem?_modify]
      by_cases hwv : v = w
      · subst hwv
        cases counts[v]? <;> simp [hv]
      · cases counts[w]? <;> simp [hwv, Ne.symm hwv]

theorem length_mark (marks : List Bool) (watchers : List Nat) :
    (mark marks watchers).length = marks.length := by
  unfold mark
  induction watchers generalizing marks with
  | nil => rfl
  | cons v rest ih => rw [List.foldl_cons, ih, List.length_set]

theorem getElem?_mark (marks : List Bool) (watchers : List Nat) (w : Nat) :
    (mark marks watchers)[w]? = marks[w]?.map fun m => decide (w ∈ watchers) || m := by
  unfold mark
  induction watchers generalizing marks with
  | nil => simp
  | cons v rest ih =>
      rw [List.foldl_cons, ih, List.getElem?_set]
      by_cases hwv : v = w
      · subst hwv
        by_cases hlt : v < marks.length
        · simp [hlt]
        · simp [hlt]
      · cases marks[w]? <;> simp [hwv, Ne.symm hwv]

variable {ls : List (Listener η κ)} {settled refreshed : List Address} {c : Cycle η κ}

-- Only listeners of the cycle are ever to be called.
theorem mem_of_listenerIf {c : Cycle η κ} {test : Nat → Bool} {w : Nat} {l : Listener η κ}
    (h : c.listenerIf test w = some l) : l ∈ c.listeners := by
  unfold listenerIf at h
  split at h
  · exact List.mem_of_getElem? h
  · cases h

theorem mem_of_waiting {c : Cycle η κ} {l : Listener η κ} (h : l ∈ c.waiting) : l ∈ c.listeners := by
  obtain ⟨w, -, hw⟩ := List.mem_filterMap.mp h
  exact mem_of_listenerIf hw

theorem listeners_settle (c : Cycle η κ) (stored : Option CachedValue) :
    (c.settle stored).1.listeners = c.listeners := by
  unfold settle
  split <;> rfl

theorem mem_of_completed {c : Cycle η κ} {stored : Option CachedValue} {l : Listener η κ}
    (h : l ∈ (c.settle stored).2) : l ∈ c.listeners := by
  rw [← c.listeners_settle stored]
  unfold settle at h ⊢
  split at h
  · cases h
  · obtain ⟨w, -, hw⟩ := List.mem_filterMap.mp h
    exact mem_of_listenerIf hw

-- A cycle over these listeners that has settled some addresses and refreshed some of them.
structure Tracks (ls : List (Listener η κ)) (settled refreshed : List Address) (c : Cycle η κ) :
    Prop where
  listeners : c.listeners = ls
  pending : ∃ done, done.map Prod.fst = settled ∧ done ++ c.pending = (plan ls).pending
  unresolved : c.unresolved = ls.map (·.missing settled)
  refreshed : c.refreshed = ls.map (·.touches refreshed)

theorem plan_tracks (ls : List (Listener η κ)) : Tracks ls [] [] (plan ls) where
  listeners := rfl
  pending := ⟨[], rfl, rfl⟩
  unresolved := by simp [plan, Listener.missing, AddressSet.size]
  refreshed := by
    have hnone : ∀ l : Listener η κ, l.touches [] = false := by
      intro l
      simp [Listener.touches]
    exact List.map_congr_left fun l _ => (hnone l).symm

theorem mem_positions {a : Address} {w : Nat} :
    w ∈ InterestMap.positions (ls.map (·.interest)) a 0 ↔
      ∃ l, ls[w]? = some l ∧ l.interest.contains a = true := by
  simp [InterestMap.mem_positions, AddressSet.contains_iff]

theorem nodup_positions (interests : List AddressSet) (a : Address) :
    (InterestMap.positions interests a 0).Nodup :=
  (InterestMap.rising_positions interests a).imp Nat.ne_of_lt

-- Looking up the positions of some elements, one after another, finds these elements.
theorem filterMap_positions {α : Type} (among test : α → Bool) (before l : List α) :
    (((l.zipIdx before.length).filter (among ·.1)).map Prod.snd).filterMap
      (fun w => (before ++ l)[w]?.filter test) = l.filter fun x => among x && test x := by
  induction l generalizing before with
  | nil => rfl
  | cons x rest ih =>
      have hih := ih (before ++ [x])
      rw [List.length_append, List.length_singleton, List.append_assoc, List.singleton_append]
        at hih
      rw [List.zipIdx_cons, List.filter_cons, List.filter_cons]
      by_cases ha : among x = true
      · by_cases ht : test x = true
        · simp [ha, ht, Option.filter, ← hih]
        · simp [ha, ht, Option.filter, ← hih]
      · simp [ha, ← hih]

namespace Tracks

variable (h : Tracks ls settled refreshed c)
include h

-- The addresses of the map are those settled and those still to be read.
theorem addresses_eq :
    settled ++ c.pending.map Prod.fst = (InterestMap.build (ls.map (·.interest))).addresses := by
  obtain ⟨done, hkeys, hdone⟩ := h.pending
  rw [← hkeys, ← List.map_append, hdone]
  rfl

section

variable {entry : Address × List Nat} (he : entry ∈ c.pending)
include he

theorem mem_plan : entry ∈ (InterestMap.build (ls.map (·.interest))).entries := by
  obtain ⟨done, -, hdone⟩ := h.pending
  show entry ∈ (plan ls).pending
  rw [← hdone]
  exact List.mem_append_right done he

theorem mem_watchers {w : Nat} :
    w ∈ entry.2 ↔ ∃ l, ls[w]? = some l ∧ l.interest.contains entry.1 = true := by
  rw [InterestMap.watchers_eq (h.mem_plan he), mem_positions]

theorem watches_iff {w : Nat} {l : Listener η κ} (hl : ls[w]? = some l) :
    w ∈ entry.2 ↔ l.interest.contains entry.1 = true := by
  rw [h.mem_watchers he, hl]
  simp

theorem nodup_watchers : entry.2.Nodup :=
  InterestMap.watchers_eq (h.mem_plan he) ▸ nodup_positions _ _

end

theorem listenerIf_eq (test : Nat → Bool) (w : Nat) :
    c.listenerIf test w =
      ls[w]?.filter fun l => l.touches refreshed && test (l.missing settled) := by
  unfold listenerIf
  rw [h.listeners, h.unresolved, h.refreshed, List.getElem?_map, List.getElem?_map]
  cases ls[w]? with
  | none => simp
  | some l => simp [Option.filter]

section

variable {a : Address} {watchers : List Nat} {rest : List (Address × List Nat)}
  (hp : c.pending = (a, watchers) :: rest)
include hp

theorem watchers_eq : watchers = InterestMap.positions (ls.map (·.interest)) a 0 :=
  InterestMap.watchers_eq (h.mem_plan (hp ▸ List.mem_cons_self))

theorem not_settled : a ∉ settled := by
  have hnodup := InterestMap.nodup_addresses (ls.map Listener.interest)
  rw [← h.addresses_eq, hp, List.map_cons] at hnodup
  intro ha
  exact (List.nodup_append.mp hnodup).2.2 a ha a (by simp) rfl

theorem settle (stored : Option CachedValue) :
    Tracks ls (settled ++ [a]) (if stored.isSome then refreshed ++ [a] else refreshed)
      (c.settle stored).1 := by
  have he : (a, watchers) ∈ c.pending := hp ▸ List.mem_cons_self
  unfold Cycle.settle
  rw [hp]
  refine ⟨h.listeners, ?_, ?_, ?_⟩
  · obtain ⟨done, hkeys, hdone⟩ := h.pending
    refine ⟨done ++ [(a, watchers)], by simp [hkeys], ?_⟩
    rw [← hdone, hp]
    simp
  · show countDown c.unresolved watchers = ls.map (·.missing (settled ++ [a]))
    apply List.ext_getElem?
    intro w
    rw [getElem?_countDown (h.nodup_watchers he), h.unresolved, List.getElem?_map,
      List.getElem?_map]
    cases hl : ls[w]? with
    | none => rfl
    | some l =>
        have hmissing := l.missing_concat (h.not_settled hp)
        by_cases ha : l.interest.contains a = true
        · simp [(h.watches_iff he hl).mpr ha, hmissing, ha]
        · rw [if_neg ha] at hmissing
          simp [mt (h.watches_iff he hl).mp ha, hmissing]
  · cases stored with
    | none => exact h.refreshed
    | some value =>
        show mark c.refreshed watchers = ls.map (·.touches (refreshed ++ [a]))
        apply List.ext_getElem?
        intro w
        rw [getElem?_mark, h.refreshed, List.getElem?_map, List.getElem?_map]
        cases hl : ls[w]? with
        | none => rfl
        | some l =>
            have hw : decide (w ∈ watchers) = l.interest.contains a := by
              rw [Bool.eq_iff_iff, decide_eq_true_iff]
              exact h.watches_iff he hl
            simp [Listener.touches_concat, hw]

-- Those that hear of an address are those that watch it, wait for no other one and have seen one
-- refreshed.
theorem completed_eq (stored : Option CachedValue) :
    (c.settle stored).2 = ls.filter fun l => l.interest.contains a &&
      (l.touches (if stored.isSome then refreshed ++ [a] else refreshed) &&
        decide (l.missing (settled ++ [a]) = 0)) := by
  have hnext := (h.settle hp stored).listenerIf_eq (· = 0)
  have hwatchers := h.watchers_eq hp
  have hlook := filterMap_positions (fun l : Listener η κ => l.interest.contains a)
    (fun l => l.touches (if stored.isSome then refreshed ++ [a] else refreshed) &&
      decide (l.missing (settled ++ [a]) = 0)) [] ls
  have hcompleted : (c.settle stored).2 =
      watchers.filterMap ((c.settle stored).1.listenerIf (· = 0)) := by
    unfold Cycle.settle
    rw [hp]
  rw [hcompleted, funext hnext, ← hlook, hwatchers, InterestMap.positions, List.zipIdx_map]
  simp [List.filter_map, Function.comp_def]

end

theorem waiting_eq :
    c.waiting = ls.filter fun l => l.touches refreshed && decide (0 < l.missing settled) := by
  have hlook := filterMap_positions (fun _ => true)
    (fun l : Listener η κ => l.touches refreshed && decide (0 < l.missing settled)) [] ls
  have hall : (ls.zipIdx.filter fun _ => true) = ls.zipIdx := List.filter_eq_self.mpr fun _ _ => rfl
  simp only [Bool.true_and, List.length_nil, hall, List.zipIdx_map_snd, List.nil_append] at hlook
  unfold waiting
  rw [funext (h.listenerIf_eq (0 < ·)), h.listeners, List.range_eq_range', hlook]

end Tracks

end Cycle

end CoilHub
