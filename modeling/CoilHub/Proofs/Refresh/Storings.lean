import CoilHub.Proofs.Cache.Refreshed
import CoilHub.Proofs.Refresh.Calls
import Mathlib.Algebra.BigOperators.Group.Finset.Basic
import Mathlib.Algebra.BigOperators.Group.Finset.Piecewise

namespace CoilHub

open CoilHub.System (Obtains)

theorem Going.settled_of_stored {limit : Nat} {ls : List HubListener} {deeds : List Deed}
    {stage : Stage} (h : Going limit ls deeds stage) {a : Address} (ha : a ∈ storedIn deeds) :
    a ∈ settledIn deeds := by
  induction h with
  | begins hp => cases ha
  | asks h hp ih =>
      rw [storedIn_append] at ha
      rw [settledIn_append]
      exact List.mem_append_left _ (ih (by simpa [storedIn] using ha))
  | asksAgain h hp hresult ih =>
      rw [storedIn_append] at ha
      rw [settledIn_append]
      exact List.mem_append_left _ (ih (by simpa [storedIn] using ha))
  | settles h hp hrest hobtains ih =>
      rw [storedIn_append] at ha
      rw [settledIn_append]
      rcases List.mem_append.mp ha with hold | hnew
      · exact List.mem_append_left _ (ih hold)
      · refine List.mem_append_right _ ?_
        cases hobtains <;> simp_all [storedIn, settledIn]

-- Whether a deed neither begins a refresh nor stores a value.
def Deed.isIdle : Deed → Bool
  | .begins _ => false
  | .offers _ _ _ stored => !stored
  | _ => true

namespace Diary

-- The deeds of each refresh, whether it has come to its end or not.
def pages (d : Diary) : List (List Deed) :=
  d.made.map (·.deeds) ++ (d.current.map Prod.snd).toList

-- How many refreshes have stored a value for an address.
def storings (d : Diary) (a : Address) : Nat := d.pages.countP fun deeds => decide (a ∈ storedIn deeds)

variable {d : Diary} {ls : List HubListener} {deeds more : List Deed} {a : Address}

theorem storings_of_current (h : d.current = some (ls, deeds)) :
    d.storings a = d.made.countP (fun r => decide (a ∈ storedIn r.deeds)) +
      if a ∈ storedIn deeds then 1 else 0 := by
  simp [storings, pages, h, List.countP_map, List.countP_cons, Function.comp_def]

theorem storings_of_outside (h : d.current = none) :
    d.storings a = d.made.countP fun r => decide (a ∈ storedIn r.deeds) := by
  simp [storings, pages, h, List.countP_map, Function.comp_def]

theorem storings_next {deed : Deed} (h : deed.isIdle = true) :
    (d.next deed).storings a = d.storings a := by
  cases hcurrent : d.current with
  | none =>
      have hnext : d.next deed = d := by
        unfold next
        rw [hcurrent]
        cases deed <;> first | rfl | cases h
      rw [hnext]
  | some current =>
      obtain ⟨ls, deeds⟩ := current
      have hgoes : ∀ {deed : Deed}, d.next deed = { d with current := some (ls, deeds ++ [deed]) } →
          storedIn [deed] = [] → (d.next deed).storings a = d.storings a := by
        intro deed hnext hstored
        rw [hnext, storings_of_current hcurrent, storings_of_current rfl, storedIn_append, hstored,
          List.append_nil]
      cases deed with
      | begins listeners => cases h
      | returns result =>
          rw [storings_of_current hcurrent]
          simp [storings, pages, next, hcurrent, List.countP_map, List.countP_cons,
            Function.comp_def]
      | offers revision b value stored =>
          obtain rfl : stored = false := by simpa [Deed.isIdle] using h
          exact hgoes (by simp [next, hcurrent]) rfl
      | _ => exact hgoes (by simp [next, hcurrent]) rfl

theorem storings_write (h : more.all Deed.isIdle = true) :
    (d.write more).storings a = d.storings a := by
  unfold write
  induction more generalizing d with
  | nil => rfl
  | cons deed rest ih =>
      rw [List.all_cons, Bool.and_eq_true] at h
      rw [List.foldl_cons, ih h.2, storings_next h.1]

-- A refresh that begins has not stored anything.
theorem storings_begins (h : d.current = none) (ls : List HubListener) :
    (d.next (.begins ls)).storings a = d.storings a := by
  rw [storings_of_outside h]
  simp [storings, pages, next, storedIn, List.countP_map, Function.comp_def]

-- A refresh stores a value for an address for which it has not stored any.
theorem storings_offers (h : d.current = some (ls, deeds)) {b : Address} (hnew : b ∉ storedIn deeds)
    (revision : UInt64) (value : CoilValue) :
    (d.next (.offers revision b value true)).storings a = d.storings a + if b = a then 1 else 0 := by
  have hnext : d.next (.offers revision b value true) =
      { d with current := some (ls, deeds ++ [.offers revision b value true]) } := by
    simp [next, h]
  have hstored : storedIn (deeds ++ [.offers revision b value true]) = storedIn deeds ++ [b] := by
    rw [storedIn_append]
    rfl
  rw [hnext, storings_of_current h, storings_of_current rfl, hstored]
  by_cases hb : b = a
  · subst hb
    simp [hnew]
  · simp [hb, Ne.symm hb]

-- The answer to a read that settles an address, and what comes after it.
theorem storings_answer (h : d.current = some (ls, deeds)) {b : Address} (hnew : b ∉ storedIn deeds)
    {cache next : Cache} {revision : UInt64} {result : FetchResult CoilValue} {offers : List Deed}
    {stored : Option CachedValue} (hobtains : Obtains cache revision b result next offers stored)
    {last : List Deed} (hlast : last.all Deed.isIdle = true) :
    (d.write (.hears b result :: offers ++ last)).storings a =
      d.storings a + if stored.isSome ∧ b = a then 1 else 0 := by
  cases hobtains with
  | missing c =>
      have hidle : (.hears b (.error (.notFound c)) :: last).all Deed.isIdle = true := hlast
      simpa using storings_write hidle
  | @refused value hstore =>
      have hidle : (.hears b (.ok value) :: .offers revision b value false :: last).all
        Deed.isIdle = true := hlast
      simpa using storings_write hidle
  | @stored value next hstore =>
      have hheard : (d.next (.hears b (.ok value))).current = some (ls, deeds ++ [.hears b (.ok value)]) := by
        simp [Diary.next, h]
      have hstored : b ∉ storedIn (deeds ++ [.hears b (.ok value)]) := by
        simpa [storedIn] using hnew
      have hquiet : (d.next (.hears b (.ok value))).storings a = d.storings a := storings_next rfl
      have hoffered := storings_offers (a := a) hheard hstored revision value
      rw [hquiet] at hoffered
      have hwritten := storings_write (d := (d.next (.hears b (.ok value))).next
        (.offers revision b value true)) (a := a) hlast
      simpa [write] using hwritten.trans hoffered

-- What a task does later is written behind what its diary says already.
def followedBy (d more : Diary) : Diary where
  made := d.made ++ more.made
  current := more.current

theorem write_eq (h : d.current = none) (more : List Deed) :
    d.write more = d.followedBy (write {} more) := by
  have hnext : ∀ (x : Diary) deed, d.followedBy (x.next deed) = (d.followedBy x).next deed := by
    intro x deed
    cases deed <;> cases hx : x.current <;> simp [followedBy, next, hx]
  have hstart : d.followedBy {} = d := by simp [followedBy, ← h]
  unfold write
  conv_lhs => rw [← hstart]
  exact (List.foldl_hom d.followedBy fun x deed => (hnext x deed).symm)

theorem storings_followedBy (h : d.current = none) (more : Diary) :
    (d.followedBy more).storings a = d.storings a + more.storings a := by
  rw [storings_of_outside h]
  simp [storings, pages, followedBy, List.countP_map, Function.comp_def]

end Diary

namespace System

variable {s s' : System} {id : TaskId} {a : Address}

-- How many refreshes have stored a value for an address, whoever made them.
def storings (s : System) (a : Address) : Nat :=
  ∑ id ∈ Finset.range s.tasks.length, (s.diary id).storings a

-- How many of those that have begun since then.
def storingsSince (s t : System) (a : Address) : Nat :=
  ∑ id ∈ Finset.range t.tasks.length, (Diary.write {} (doneSince s t id)).storings a

theorem stage?_of_length_le (h : s.tasks.length ≤ id) : s.stage? id = none := by
  simp [stage?, h]

-- A task that is not there has done nothing.
theorem deeds_of_length_le (hs : s.Reachable) (h : s.tasks.length ≤ id) : s.deeds id = [] := by
  apply hs.audible.silent
  rw [stage?_of_length_le h]
  rfl

theorem storings_eq_sum (hs : s.Reachable) {n : Nat} (hn : s.tasks.length ≤ n) :
    s.storings a = ∑ id ∈ Finset.range n, (s.diary id).storings a := by
  refine Finset.sum_subset (Finset.range_subset_range.mpr hn) fun id _ hid => ?_
  have hlength : s.tasks.length ≤ id := by simpa using hid
  unfold diary
  rw [deeds_of_length_le hs hlength]
  rfl

theorem storings_congr (hs : s.Reachable) (hs' : s'.Reachable)
    (h : ∀ id, (s'.diary id).storings a = (s.diary id).storings a) : s'.storings a = s.storings a := by
  rw [storings_eq_sum hs (Nat.le_max_left _ s'.tasks.length),
    storings_eq_sum hs' (Nat.le_max_right s.tasks.length _)]
  exact Finset.sum_congr rfl fun id _ => h id

-- A task that is there stores for the address once more, or not.
theorem storings_turned (hs : s.Reachable) (hs' : s'.Reachable) {stage : Stage} {count : Nat}
    (hst : s.stage? id = some stage)
    (hself : (s'.diary id).storings a = (s.diary id).storings a + count)
    (hothers : ∀ j, j ≠ id → s'.diary j = s.diary j) : s'.storings a = s.storings a + count := by
  have hall : ∀ j, (s'.diary j).storings a =
      (s.diary j).storings a + if j = id then count else 0 := by
    intro j
    by_cases hj : j = id
    · rw [if_pos hj, hj]
      exact hself
    · rw [if_neg hj, hothers j hj]
      rfl
  have hid : id < s.tasks.length := by
    by_contra hlt
    rw [stage?_of_length_le (Nat.le_of_not_lt hlt)] at hst
    cases hst
  rw [storings_eq_sum hs (Nat.le_max_left _ s'.tasks.length),
    storings_eq_sum hs' (Nat.le_max_right s.tasks.length _), Finset.sum_congr rfl fun j _ => hall j,
    Finset.sum_add_distrib, Finset.sum_ite_eq', if_pos]
  exact Finset.mem_range.mpr (Nat.lt_of_lt_of_le hid (Nat.le_max_left _ _))

-- No task is ever taken away.
theorem length_tasks_play (s : System) (moves : List Move) :
    s.tasks.length ≤ (s.play moves).tasks.length := by
  by_contra hlt
  have hfound : (s.play moves).tasks.length < s.tasks.length := Nat.lt_of_not_le hlt
  have hjob : s.job? (s.play moves).tasks.length =
      some s.tasks[(s.play moves).tasks.length].job := by simp [job?, hfound]
  have hlater := job?_play hjob moves
  rw [job?_length] at hlater
  cases hlater

-- If no refresh is under way, those that store a value later begin later.
theorem storings_play (hs : s.Reachable)
    (hidle : ∀ id stage, s.stage? id = some stage → stage.cycle? = none) (moves : List Move)
    (a : Address) :
    (s.play moves).storings a = s.storings a + storingsSince s (s.play moves) a := by
  have hlength := length_tasks_play s moves
  have hall : ∀ id, ((s.play moves).diary id).storings a =
      (s.diary id).storings a + (Diary.write {} (doneSince s (s.play moves) id)).storings a := by
    intro id
    have hcurrent : (s.diary id).current = none := by
      apply (hs.documented.diligent id).current_eq_none
      cases hst : s.stage? id with
      | none => rfl
      | some stage => exact hidle id stage hst
    have hmore := deeds_play s moves id
    rw [doneSince_of_deeds_eq hmore, ← Diary.storings_followedBy hcurrent, ← Diary.write_eq hcurrent]
    unfold diary
    rw [hmore, Diary.write_append]
  rw [storings_eq_sum hs hlength, storings, storingsSince, ← Finset.sum_add_distrib]
  exact Finset.sum_congr rfl fun id _ => hall id

end System

end CoilHub
