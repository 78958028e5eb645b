import CoilHub.Proofs.Refresh.Calls
import Mathlib.Data.List.Nodup

namespace CoilHub

namespace Cycle

variable {η κ : Type} {c : Cycle η κ} {w : Nat} {watchers : List Nat} {test : Nat → Bool}

theorem countOff?_eq {counts : List Nat} {count : Nat} (h : counts[w]? = some (count + 1)) :
    countOff? counts w = some (counts.modify w (· - 1)) := by
  rw [countOff?, h]
  show some (counts.set w count) = _
  congr 1
  apply List.ext_getElem?
  intro v
  rw [List.getElem?_set, List.getElem?_modify]
  by_cases hv : w = v
  · subst hv
    obtain ⟨hlt, hcount⟩ := List.getElem?_eq_some_iff.mp h
    simp [hlt, hcount]
  · cases counts[v]? <;> simp [hv]

theorem mark?_eq {marks : List Bool} (h : ∀ w ∈ watchers, w < marks.length) :
    mark? marks watchers = some (mark marks watchers) := by
  induction watchers generalizing marks with
  | nil => rfl
  | cons w rest ih =>
      rw [mark?, if_pos (h w List.mem_cons_self)]
      exact ih fun v hv => by simpa using h v (List.mem_cons_of_mem w hv)

-- Whether a position can be looked up in all lists of a cycle.
def Has (c : Cycle η κ) (w : Nat) : Prop :=
  w < c.unresolved.length ∧ w < c.refreshed.length ∧ w < c.listeners.length

theorem listenerIf?_eq (h : c.Has w) : c.listenerIf? test w = some (c.listenerIf test w) := by
  obtain ⟨hcount, hmark, hlistener⟩ := h
  rw [listenerIf?, listenerIf, List.getElem?_eq_getElem hcount, List.getElem?_eq_getElem hmark,
    List.getElem?_eq_getElem hlistener]
  rfl

theorem listenersIf?_eq (h : ∀ w ∈ watchers, c.Has w) :
    c.listenersIf? test watchers = some (watchers.filterMap (c.listenerIf test)) := by
  induction watchers with
  | nil => rfl
  | cons w rest ih =>
      have hrest := ih fun v hv => h v (List.mem_cons_of_mem w hv)
      rw [listenersIf?, listenerIf?_eq (h w List.mem_cons_self), hrest, List.filterMap_cons]
      cases c.listenerIf test w <;> rfl

-- The counters of different watchers do not matter to each other.
theorem listenerIf_countDown (hnodup : watchers.Nodup) (hw : w ∉ watchers) :
    { c with unresolved := countDown c.unresolved watchers }.listenerIf test w =
      c.listenerIf test w := by
  have hsame : (countDown c.unresolved watchers)[w]? = c.unresolved[w]? := by
    rw [getElem?_countDown hnodup]
    simp [hw]
  simp only [listenerIf, hsame]

-- That a watcher is called before the next one is counted down makes no difference.
theorem countDown?_eq (hnodup : watchers.Nodup) (hhas : ∀ w ∈ watchers, c.Has w)
    (hcounts : ∀ w ∈ watchers, ∃ count, c.unresolved[w]? = some (count + 1)) :
    c.countDown? watchers =
      some ({ c with unresolved := countDown c.unresolved watchers },
        watchers.filterMap
          ({ c with unresolved := countDown c.unresolved watchers }.listenerIf (· = 0))) := by
  induction watchers generalizing c with
  | nil => rfl
  | cons w rest ih =>
      obtain ⟨hw, hrest⟩ := List.nodup_cons.mp hnodup
      obtain ⟨count, hcount⟩ := hcounts w List.mem_cons_self
      let next : Cycle η κ := { c with unresolved := c.unresolved.modify w (· - 1) }
      have hnext : ∀ v ∈ w :: rest, next.Has v := fun v hv => by
        simpa only [Has, next, List.length_modify] using hhas v hv
      have hlater := ih (c := next) hrest (fun v hv => hnext v (List.mem_cons_of_mem w hv))
        fun v hv => by
          have hwv : w ≠ v := fun heq => hw (heq ▸ hv)
          obtain ⟨count, hcount⟩ := hcounts v (List.mem_cons_of_mem w hv)
          refine ⟨count, ?_⟩
          simp [next, hwv, hcount]
      let last : Cycle η κ := { next with unresolved := countDown next.unresolved rest }
      have hcalled : last.listenerIf (· = 0) w = next.listenerIf (· = 0) w :=
        listenerIf_countDown hrest hw
      calc
        c.countDown? (w :: rest)
          = (next.listenerIf? (· = 0) w).bind fun called =>
              (next.countDown? rest).map fun done => (done.1, called.toList ++ done.2) := by
          rw [countDown?, countOff?_eq hcount]
          rfl
        _ = some (last, (next.listenerIf (· = 0) w).toList ++
              rest.filterMap (last.listenerIf (· = 0))) := by
          rw [listenerIf?_eq (hnext w List.mem_cons_self), hlater]
          rfl
        _ = some (last, (w :: rest).filterMap (last.listenerIf (· = 0))) := by
          rw [List.filterMap_cons, hcalled]
          cases next.listenerIf (· = 0) w <;> rfl

-- How many addresses of a listener are among some entries.
def outstanding (entries : List (Address × List Nat)) (l : Listener η κ) : Nat :=
  entries.countP fun entry => l.interest.contains entry.1

theorem outstanding_cons (entry : Address × List Nat) (rest : List (Address × List Nat))
    (l : Listener η κ) :
    outstanding (entry :: rest) l =
      outstanding rest l + if l.interest.contains entry.1 then 1 else 0 := List.countP_cons

-- What holds of a cycle before the next address is settled, and while it is: what is looked up is
-- there, the counters are right, and so it does not fail and leaves alone those without an address.
structure Sound (c : Cycle η κ) : Prop where
  aligned : ∀ w < c.listeners.length, c.Has w
  has : ∀ entry ∈ c.pending, ∀ w ∈ entry.2, c.Has w
  counted : ∀ (w : Nat) (l : Listener η κ), c.listeners[w]? = some l →
    c.unresolved[w]? = some (outstanding c.pending l)
  -- some of the watchers have been counted down, and the others have not
  between : ∀ entry rest, c.pending = entry :: rest → ∀ done left, entry.2 = done ++ left →
    ∀ (w : Nat) (l : Listener η κ), c.listeners[w]? = some l →
      (countDown c.unresolved done)[w]? = some (outstanding rest l + if w ∈ left then 1 else 0)
  positive : ∀ entry rest, c.pending = entry :: rest → ∀ done w left, entry.2 = done ++ w :: left →
    ∃ count, (countDown c.unresolved done)[w]? = some (count + 1)
  settles : ∀ stored, c.settle? stored = some (c.settle stored)
  waits : c.waiting? = some c.waiting
  uncounted : ∀ (w : Nat) (l : Listener η κ), c.listeners[w]? = some l → l.interest = .empty →
    ∀ entry ∈ c.pending, w ∉ entry.2
  uncalled : ∀ stored, ∀ l ∈ (c.settle stored).2 ++ c.waiting, l.interest ≠ .empty

namespace Tracks

variable {ls : List (Listener η κ)} {settled refreshed : List Address} {l : Listener η κ}
  {entry : Address × List Nat} {rest : List (Address × List Nat)}
  (h : Tracks ls settled refreshed c)
include h

theorem has_of_lt (hw : w < ls.length) : c.Has w := by
  rw [Has, h.unresolved, h.refreshed, h.listeners, List.length_map, List.length_map]
  exact ⟨hw, hw, hw⟩

theorem has_watcher (he : entry ∈ c.pending) (hw : w ∈ entry.2) : c.Has w := by
  obtain ⟨l, hl, -⟩ := (h.mem_watchers he).mp hw
  exact h.has_of_lt (List.getElem?_eq_some_iff.mp hl).1

-- The addresses that a listener has not seen settled are those that it has among the entries left:
-- each of them has an entry, and only one.
theorem missing_eq (hl : l ∈ ls) : l.missing settled = outstanding c.pending l := by
  have hnodup := InterestMap.nodup_addresses (ls.map (·.interest))
  rw [← h.addresses_eq] at hnodup
  obtain ⟨-, hpending, hapart⟩ := List.nodup_append.mp hnodup
  have hmem : ∀ a, a ∈ l.interest.elems.filter (fun a => decide (a ∉ settled)) ↔
      a ∈ (c.pending.map Prod.fst).filter l.interest.contains := by
    intro a
    have hknown : a ∈ l.interest → a ∈ settled ++ c.pending.map Prod.fst := fun ha => by
      rw [h.addresses_eq]
      exact InterestMap.mem_addresses.mpr ⟨l.interest, List.mem_map_of_mem hl, ha⟩
    rw [List.mem_filter, List.mem_filter, decide_eq_true_iff, AddressSet.contains_iff]
    constructor
    · rintro ⟨ha, hnew⟩
      exact ⟨(List.mem_append.mp (hknown ha)).resolve_left hnew, ha⟩
    · rintro ⟨hleft, ha⟩
      exact ⟨ha, fun hold => hapart a hold a hleft rfl⟩
  have hperm := (List.perm_ext_iff_of_nodup (l.interest.nodup.filter _) (hpending.filter _)).mpr hmem
  have hlength := hperm.length_eq
  rw [← List.countP_eq_length_filter, ← List.countP_eq_length_filter, List.countP_map] at hlength
  exact hlength

theorem counted (hl : ls[w]? = some l) : c.unresolved[w]? = some (outstanding c.pending l) := by
  rw [h.unresolved, List.getElem?_map, hl, Option.map_some, h.missing_eq (List.mem_of_getElem? hl)]

section

variable (hp : c.pending = entry :: rest) {done left : List Nat} (hwatchers : entry.2 = done ++ left)
include hp hwatchers

-- A counter still has the address that is being settled until it is counted down itself.
theorem between (hl : ls[w]? = some l) :
    (countDown c.unresolved done)[w]? = some (outstanding rest l + if w ∈ left then 1 else 0) := by
  have he : entry ∈ c.pending := hp ▸ List.mem_cons_self
  have hnodup := h.nodup_watchers he
  rw [hwatchers] at hnodup
  obtain ⟨hdone, -, hapart⟩ := List.nodup_append.mp hnodup
  have hmem := h.watches_iff he hl
  rw [hwatchers, List.mem_append] at hmem
  rw [getElem?_countDown hdone, h.counted hl, hp, outstanding_cons, Option.map_some]
  by_cases hwdone : w ∈ done
  · have hwleft : w ∉ left := fun hw => hapart w hwdone w hw rfl
    simp [hwdone, hwleft, hmem.mp (.inl hwdone)]
  · simp only [hwdone, false_or] at hmem
    simp [hwdone, hmem]

theorem positive (hw : w ∈ left) : ∃ count, (countDown c.unresolved done)[w]? = some (count + 1) := by
  have hwatcher : w ∈ entry.2 := hwatchers ▸ List.mem_append_right done hw
  obtain ⟨l, hl, -⟩ := (h.mem_watchers (hp ▸ List.mem_cons_self)).mp hwatcher
  refine ⟨outstanding rest l, ?_⟩
  rw [h.between hp hwatchers hl, if_pos hw]

end

theorem settles (stored : Option CachedValue) : c.settle? stored = some (c.settle stored) := by
  cases hp : c.pending with
  | nil => simp only [settle?, Cycle.settle, hp]
  | cons entry rest =>
      obtain ⟨a, watchers⟩ := entry
      have he : (a, watchers) ∈ c.pending := hp ▸ List.mem_cons_self
      have hhas : ∀ w ∈ watchers, c.Has w := fun w hw => h.has_watcher he hw
      have hcounts : ∀ w ∈ watchers, ∃ count, c.unresolved[w]? = some (count + 1) :=
        fun w hw => h.positive hp (List.nil_append watchers).symm hw
      have hnodup : watchers.Nodup := h.nodup_watchers he
      rw [settle?, Cycle.settle, hp]
      cases stored with
      | none => exact countDown?_eq (c := { c with pending := rest }) hnodup hhas hcounts
      | some cached =>
          let marked : Cycle η κ :=
            { c with
              pending := rest
              refreshed := mark c.refreshed watchers
              result := c.result.insert a cached }
          have hmarked : ∀ w ∈ watchers, marked.Has w := fun w hw => by
            simpa only [Has, marked, length_mark] using hhas w hw
          simp only [Option.isSome_some, if_true, mark?_eq fun w hw => (hhas w hw).2.1,
            Option.bind_some]
          exact countDown?_eq (c := marked) hnodup hmarked hcounts

theorem waits : c.waiting? = some c.waiting := by
  apply listenersIf?_eq
  intro w hw
  rw [List.mem_range, h.listeners] at hw
  exact h.has_of_lt hw

theorem concerned (stored : Option CachedValue) (hl : l ∈ (c.settle stored).2 ++ c.waiting) :
    l.interest ≠ .empty := by
  have htouched : ∃ a, a ∈ l.interest := by
    rcases List.mem_append.mp hl with hcompleted | hwaits
    · cases hp : c.pending with
      | nil => simp [Cycle.settle, hp] at hcompleted
      | cons entry rest =>
          rw [h.completed_eq hp] at hcompleted
          have htest := (List.mem_filter.mp hcompleted).2
          rw [Bool.and_eq_true, AddressSet.contains_iff] at htest
          exact ⟨_, htest.1⟩
    · rw [h.waiting_eq] at hwaits
      have htest := (List.mem_filter.mp hwaits).2
      rw [Bool.and_eq_true, Listener.touches_iff] at htest
      obtain ⟨⟨a, ha, -⟩, -⟩ := htest
      exact ⟨a, ha⟩
  obtain ⟨a, ha⟩ := htouched
  intro hempty
  rw [hempty] at ha
  cases ha

theorem sound : c.Sound where
  aligned := h.listeners ▸ fun _ hw => h.has_of_lt hw
  has := fun _ he _ hw => h.has_watcher he hw
  counted := h.listeners ▸ fun _ _ hl => h.counted hl
  between := h.listeners ▸ fun _ _ hp _ _ hwatchers _ _ hl => h.between hp hwatchers hl
  positive := fun _ _ hp _ _ _ hwatchers => h.positive hp hwatchers List.mem_cons_self
  settles := h.settles
  waits := h.waits
  uncounted := by
    rw [h.listeners]
    intro w l hl hempty entry he hw
    have hwatches := (h.watches_iff he hl).mp hw
    rw [hempty] at hwatches
    cases hwatches
  uncalled := fun stored _ hl => h.concerned stored hl

end Tracks

section Run

variable {ls : List (Listener η κ)} {outcomes : List (Option CachedValue)}
  {called : List (Listener η κ)}

theorem run?_settle {settled refreshed : List Address} (h : run? ls outcomes = some (c, called))
    (htracks : Tracks ls settled refreshed c) (stored : Option CachedValue) :
    run? ls (outcomes ++ [stored]) = some ((c.settle stored).1, called ++ (c.settle stored).2) := by
  unfold run? at h ⊢
  rw [List.foldlM_append, h]
  simp [htracks.settles stored]

theorem pending_settle (c : Cycle η κ) (stored : Option CachedValue) :
    (c.settle stored).1.pending = c.pending.tail := by
  unfold settle
  split
  · next hp => rw [hp]; rfl
  · next hp => rw [hp]; rfl

-- A cycle of these listeners after these outcomes, and those that were called on the way.
structure After (ls : List (Listener η κ)) (outcomes : List (Option CachedValue)) (c : Cycle η κ)
    (called : List (Listener η κ)) : Prop where
  listeners : c.listeners = ls
  pending : c.pending = (plan ls).pending.drop outcomes.length
  sound : c.Sound
  called : ∀ l ∈ called, l ∈ ls ∧ l.interest ≠ .empty

theorem exists_run (ls : List (Listener η κ)) (outcomes : List (Option CachedValue)) :
    ∃ c called settled refreshed, run? ls outcomes = some (c, called) ∧
      Tracks ls settled refreshed c ∧ After ls outcomes c called := by
  induction outcomes using List.reverseRecOn with
  | nil =>
      have htracks := plan_tracks ls
      exact ⟨plan ls, [], [], [], rfl, htracks, rfl, rfl, htracks.sound, by simp⟩
  | append_singleton outcomes stored ih =>
      obtain ⟨c, called, settled, refreshed, hrun, htracks, hafter⟩ := ih
      have hnext : ∃ settled refreshed, Tracks ls settled refreshed (c.settle stored).1 := by
        cases hp : c.pending with
        | nil =>
            refine ⟨settled, refreshed, ?_⟩
            rw [settle, hp]
            exact htracks
        | cons entry rest => exact ⟨_, _, htracks.settle hp stored⟩
      obtain ⟨settled', refreshed', hnext⟩ := hnext
      refine ⟨_, _, settled', refreshed', run?_settle hrun htracks stored, hnext, hnext.listeners, ?_,
        hnext.sound, ?_⟩
      · rw [pending_settle, hafter.pending, List.tail_drop, List.length_append, List.length_singleton]
      · intro l hl
        rcases List.mem_append.mp hl with hold | hnew
        · exact hafter.called l hold
        · refine ⟨htracks.listeners ▸ mem_of_completed hnew, ?_⟩
          exact htracks.concerned stored (List.mem_append_left _ hnew)

end Run

end Cycle

theorem Going.run {limit : Nat} {ls : List HubListener} {deeds : List Deed} {stage : Stage}
    (h : Going limit ls deeds stage) {cycle : HubCycle} (hc : stage.cycle? = some cycle) :
    ∃ outcomes, Cycle.run? ls outcomes = some (cycle, calledIn deeds) := by
  induction h generalizing cycle with
  | begins hp =>
      cases hc
      exact ⟨[], rfl⟩
  | asks h hp ih =>
      cases hc
      obtain ⟨outcomes, hrun⟩ := ih rfl
      exact ⟨outcomes, by simpa [calledIn] using hrun⟩
  | asksAgain h hp hresult ih =>
      cases hc
      obtain ⟨outcomes, hrun⟩ := ih rfl
      exact ⟨outcomes, by simpa [calledIn] using hrun⟩
  | @settles deeds offers cycle a watchers rest revision attempt due result cache next stored hub h hp
      hrest hobtains ih =>
      cases hc
      obtain ⟨outcomes, hrun⟩ := ih rfl
      have htracks := (h.accounts rfl).tracks
      refine ⟨outcomes ++ [stored], ?_⟩
      rw [Cycle.run?_settle hrun htracks stored]
      cases hobtains <;> simp [calledIn]

-- A cycle of these listeners can be carried out so that it calls these and ends like this: it has gone
-- through all addresses, or at last calls those who still wait.
def Concludes (ls called : List HubListener) (result : RefreshResult) : Prop :=
  ∃ outcomes cycle before after, Cycle.run? ls outcomes = some (cycle, before) ∧
    called = before ++ after ∧
    match result with
    | .ok values => cycle.pending = [] ∧ cycle.result = values ∧ after = []
    | .error _ => cycle.waiting? = some after

theorem Going.concludes {limit : Nat} {ls : List HubListener} {deeds more : List Deed}
    {stage : Stage} {cycle : HubCycle} (h : Going limit ls deeds stage) (hc : stage.cycle? = some cycle)
    (hmore : calledIn more = cycle.waiting) (e : HubError) :
    Concludes ls (calledIn (deeds ++ more)) (.error e) := by
  obtain ⟨outcomes, hrun⟩ := h.run hc
  refine ⟨outcomes, cycle, _, cycle.waiting, hrun, ?_, (h.accounts hc).tracks.waits⟩
  rw [calledIn_append, hmore]

theorem Course.concludes {limit : Nat} {ls : List HubListener} {deeds : List Deed}
    {result : RefreshResult} (h : Course limit ls deeds result) :
    Concludes ls (calledIn deeds) result := by
  cases h with
  | beginsNothing hp => exact ⟨[], _, _, [], rfl, rfl, hp, rfl, rfl⟩
  | @settlesLast deeds offers cycle a watchers revision attempt due result cache next stored hub h hp
      hobtains =>
      obtain ⟨outcomes, hrun⟩ := h.run rfl
      have hnext := Cycle.run?_settle hrun (h.accounts rfl).tracks stored
      refine ⟨_, _, _, [], hnext, ?_, ?_, rfl, rfl⟩
      · cases hobtains <;> simp [calledIn]
      · rw [Cycle.pending_settle, hp, List.tail_cons]
  | withdraws h => exact h.concludes rfl (by simp [calledIn]) _
  | givesUp h => exact h.concludes rfl (by simp [calledIn]) _
  | fails h hp hresult hfound => exact h.concludes rfl (by simp [calledIn]) _

-- No listener without an address is among those that were called.
def OmitsIdle (ls called : List HubListener) : Prop :=
  ∀ l ∈ ls, l.interest = .empty → ∀ m ∈ called, m.handle ≠ l.handle

theorem Cycle.After.omitsIdle {ls called : List HubListener} {outcomes : List (Option CachedValue)}
    {cycle : HubCycle} (h : Cycle.After ls outcomes cycle called) (hunique : System.Unique ls) :
    OmitsIdle ls (called ++ cycle.waiting) := by
  intro l hl hempty m hm heq
  obtain ⟨hmem, hconcerned⟩ : m ∈ ls ∧ m.interest ≠ .empty := by
    rcases List.mem_append.mp hm with hold | hwaits
    · exact h.called m hold
    · exact ⟨h.listeners ▸ Cycle.mem_of_waiting hwaits,
        h.sound.uncalled none m (List.mem_append_right _ hwaits)⟩
  -- listeners with one handle are the same
  obtain rfl := List.inj_on_of_nodup_map hunique hmem hl heq
  exact hconcerned hempty

theorem after_of_run {ls called : List HubListener} {outcomes : List (Option CachedValue)}
    {cycle : HubCycle} (h : Cycle.run? ls outcomes = some (cycle, called)) :
    Cycle.After ls outcomes cycle called := by
  obtain ⟨_, _, _, _, hrun, -, hafter⟩ := Cycle.exists_run ls outcomes
  cases hrun.symm.trans h
  exact hafter

theorem Concludes.omitsIdle {ls called : List HubListener} {result : RefreshResult}
    (h : Concludes ls called result) (hunique : System.Unique ls) : OmitsIdle ls called := by
  obtain ⟨outcomes, cycle, before, after, hrun, rfl, hend⟩ := h
  have hafter := after_of_run hrun
  intro l hl hempty m hm
  apply hafter.omitsIdle hunique l hl hempty m
  rw [List.mem_append] at hm ⊢
  refine hm.imp_right fun hm => ?_
  cases result with
  | ok values =>
      rw [hend.2.2] at hm
      cases hm
  | error e =>
      have heq := hafter.sound.waits.symm.trans hend
      cases heq
      exact hm

-- Whatever listeners a cycle has and whatever their addresses come to, it is carried out without
-- failing, and at each point of it the counters are the numbers of addresses that are left. Every
-- refresh of a system is such a cycle as far as it has got, and has called the same listeners.
theorem counters_exact :
    (∀ (η κ : Type) (ls : List (Listener η κ)) (outcomes : List (Option CachedValue)),
      ∃ cycle called, Cycle.run? ls outcomes = some (cycle, called) ∧
        Cycle.After ls outcomes cycle called) ∧
    ∀ s : System, s.Reachable → ∀ id,
      (∀ stage cycle, s.stage? id = some stage → stage.cycle? = some cycle →
        ∃ ls deeds outcomes, (s.diary id).current = some (ls, deeds) ∧
          Cycle.run? ls outcomes = some (cycle, calledIn deeds) ∧ cycle.Sound ∧
          OmitsIdle ls (calledIn deeds)) ∧
      ∀ r ∈ refreshes (s.deeds id),
        Concludes r.listeners (calledIn r.deeds) r.result ∧
          OmitsIdle r.listeners (calledIn r.deeds) := by
  constructor
  · intro η κ ls outcomes
    obtain ⟨cycle, called, _, _, hrun, -, hafter⟩ := Cycle.exists_run ls outcomes
    exact ⟨cycle, called, hrun, hafter⟩
  · intro s hs id
    have hdiligent := hs.documented.diligent id
    constructor
    · intro stage cycle hst hc
      rw [hst] at hdiligent
      obtain ⟨ls, deeds, hcurrent, hunique, hgoing⟩ := hdiligent.current_eq_some hc
      obtain ⟨outcomes, hrun⟩ := hgoing.run hc
      have hafter := after_of_run hrun
      refine ⟨ls, deeds, outcomes, hcurrent, hrun, hafter.sound, ?_⟩
      intro l hl hempty m hm
      exact hafter.omitsIdle hunique l hl hempty m (List.mem_append_left _ hm)
    · intro r hr
      obtain ⟨hunique, hcourse⟩ := hdiligent.made r hr
      exact ⟨hcourse.concludes, hcourse.concludes.omitsIdle hunique⟩

-- Two listeners share an address and a third one has none. With the first address settled, only the
-- listener that watches it has been counted down.
def idleAmongOthers : List System.Move :=
  [.act (.listen "idle" [] []), .act (.listen "first" [1, 2] []), .act (.listen "second" [2, 3] []),
    .spawn .refresh, .step 0, .step 0, .step 0, .step 0]

theorem counters_exact_idleAmongOthers :
    (∃ stage cycle,
      ((System.fresh {} .f1255 { source := .echo }).play idleAmongOthers).stage? 0 = some stage ∧
        stage.cycle? = some cycle ∧ cycle.unresolved = [0, 1, 2] ∧
        cycle.pending = [(2, [1, 2]), (3, [2])] ∧ cycle.Sound) ∧
    ∃ r ∈ refreshes (((System.fresh {} .f1255 { source := .echo }).play
        (idleAmongOthers ++ .replicate 4 (.step 0))).deeds 0),
      r.listeners.map (·.handle) = [.named "idle", .named "first", .named "second"] ∧
        (calledIn r.deeds).map (·.handle) = [.named "first", .named "second"] ∧
        Concludes r.listeners (calledIn r.deeds) r.result ∧
        OmitsIdle r.listeners (calledIn r.deeds) := by
  constructor
  · refine ⟨_, _, rfl, rfl, rfl, rfl, ?_⟩
    obtain ⟨ls, deeds, outcomes, -, -, hsound, -⟩ :=
      (counters_exact.2 ((System.fresh {} .f1255 { source := .echo }).play idleAmongOthers)
        ⟨_, _, _, _, rfl⟩ 0).1 _ _ rfl rfl
    exact hsound
  · have hne : refreshes (((System.fresh {} .f1255 { source := .echo }).play
        (idleAmongOthers ++ .replicate 4 (.step 0))).deeds 0) ≠ [] :=
      List.ne_nil_of_length_pos (by decide)
    refine ⟨_, List.head_mem hne, rfl, rfl, ?_⟩
    exact (counters_exact.2 _ ⟨_, _, _, _, rfl⟩ 0).2 _ (List.head_mem hne)

end CoilHub
