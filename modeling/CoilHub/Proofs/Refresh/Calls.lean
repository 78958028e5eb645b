import CoilHub.Proofs.Interleaving.Enactment
import CoilHub.Proofs.Refresh.Diary

namespace CoilHub

open CoilHub.System (Obtains)

-- Whether a listener hears of an address that is settled after these deeds.
def hearsOf (deeds : List Deed) (a : Address) (l : HubListener) : Bool :=
  l.interest.contains a &&
    (l.touches (storedIn deeds) && decide (l.missing (settledIn deeds ++ [a]) = 0))

-- Whether a listener has seen an address refreshed and waits for another one.
def waitsAfter (deeds : List Deed) (l : HubListener) : Bool :=
  l.touches (storedIn deeds) && decide (0 < l.missing (settledIn deeds))

-- Whether a listener has seen an address refreshed and waits for no other one.
def doneAfter (deeds : List Deed) (l : HubListener) : Bool :=
  l.touches (storedIn deeds) && decide (l.missing (settledIn deeds) = 0)

-- Every address that is settled is followed at once by the calls that are due.
def Tells (ls : List HubListener) (deeds : List Deed) : Prop :=
  ∀ before a after, deeds = before ++ .settles a :: after →
    ∃ hub rest, after = .calls hub (ls.filter (hearsOf before a)) :: rest

theorem mem_settledIn {deeds : List Deed} {a : Address} :
    a ∈ settledIn deeds ↔ .settles a ∈ deeds := by
  unfold settledIn
  rw [List.mem_filterMap]
  constructor
  · rintro ⟨deed, hmem, hdeed⟩
    cases deed <;> cases hdeed
    exact hmem
  · intro hmem
    exact ⟨_, hmem, rfl⟩

theorem Tells.append {ls : List HubListener} {deeds more : List Deed} (h : Tells ls deeds)
    (hmore : ∀ first a after, more = first ++ .settles a :: after →
      ∃ hub rest, after = .calls hub (ls.filter (hearsOf (deeds ++ first) a)) :: rest) :
    Tells ls (deeds ++ more) := by
  intro before a after heq
  rcases split_append heq with ⟨rest, hd, rfl⟩ | ⟨first, rfl, hm⟩
  · obtain ⟨hub, rest', rfl⟩ := h before a rest hd
    exact ⟨hub, rest' ++ more, rfl⟩
  · exact hmore first a after hm

-- Two tests that never hold together pick out disjoint parts.
theorem filter_perm {α : Type} (p q r : α → Bool) (l : List α) (hr : ∀ x ∈ l, r x = (p x || q x))
    (hpq : ∀ x ∈ l, p x = true → q x = false) :
    (l.filter p ++ l.filter q).Perm (l.filter r) := by
  induction l with
  | nil => exact .nil
  | cons x rest ih =>
      have hrest := ih (fun y hy => hr y (List.mem_cons_of_mem x hy))
        fun y hy => hpq y (List.mem_cons_of_mem x hy)
      rw [List.filter_cons, List.filter_cons, List.filter_cons, hr x List.mem_cons_self]
      by_cases hp : p x = true
      · simpa [hp, hpq x List.mem_cons_self hp] using hrest
      · by_cases hq : q x = true
        · simpa [hp, hq] using List.perm_middle.trans (hrest.cons x)
        · simpa [hp, hq] using hrest

-- The books of a refresh that is under way.
structure Accounts (ls : List HubListener) (deeds : List Deed) (cycle : HubCycle) : Prop where
  tracks : cycle.Tracks ls (settledIn deeds) (storedIn deeds)
  called : (calledIn deeds).Perm (ls.filter (doneAfter deeds))
  tells : Tells ls deeds

namespace Accounts

variable {ls : List HubListener} {deeds : List Deed} {cycle : HubCycle}

theorem plan (ls : List HubListener) : Accounts ls [] (Cycle.plan ls) where
  tracks := Cycle.plan_tracks ls
  called := by
    have hnone : ls.filter (doneAfter []) = [] := by
      rw [List.filter_eq_nil_iff]
      simp [doneAfter, storedIn, Listener.touches]
    rw [hnone]
    exact .nil
  tells := by simp [Tells]

variable (h : Accounts ls deeds cycle)
include h

theorem quiet {more : List Deed} (hsettled : settledIn more = []) (hstored : storedIn more = [])
    (hcalled : calledIn more = []) : Accounts ls (deeds ++ more) cycle where
  tracks := by
    rw [settledIn_append, storedIn_append, hsettled, hstored, List.append_nil, List.append_nil]
    exact h.tracks
  called := by
    have hdone : doneAfter (deeds ++ more) = doneAfter deeds := by
      funext l
      simp [doneAfter, hsettled, hstored]
    rw [calledIn_append, hcalled, List.append_nil, hdone]
    exact h.called
  tells := by
    apply h.tells.append
    intro first a after heq
    have hmem : a ∈ settledIn more := mem_settledIn.mpr (by simp [heq])
    rw [hsettled] at hmem
    cases hmem

section

variable {a : Address} {watchers : List Nat} {rest : List (Address × List Nat)}
  {result : FetchResult CoilValue} {revision : UInt64} {cache next : Cache} {offers : List Deed}
  {stored : Option CachedValue} (hp : cycle.pending = (a, watchers) :: rest)
  (hobtains : Obtains cache revision a result next offers stored)
include hp hobtains

omit hp in
theorem answer :
    settledIn (deeds ++ .hears a result :: offers) = settledIn deeds ∧
      calledIn (deeds ++ .hears a result :: offers) = calledIn deeds ∧
      storedIn (deeds ++ .hears a result :: offers) =
        (if stored.isSome then storedIn deeds ++ [a] else storedIn deeds) ∧
      Tells ls (deeds ++ .hears a result :: offers) := by
  have hnone : settledIn (.hears a result :: offers) = [] := by
    cases hobtains <;> rfl
  refine ⟨by simp [hnone], ?_, ?_, ?_⟩
  · cases hobtains <;> simp [calledIn]
  · cases hobtains <;> simp [storedIn]
  · apply h.tells.append
    intro first b after heq
    have hmem : b ∈ settledIn (.hears a result :: offers) := mem_settledIn.mpr (by simp [heq])
    rw [hnone] at hmem
    cases hmem

-- A listener that watches the address was not done before, and nothing changes for the others.
theorem settle (hub : Hub) :
    Accounts ls
      (deeds ++ (.hears a result :: offers ++ [.settles a, .calls hub (cycle.settle stored).2]))
      (cycle.settle stored).1 := by
  have hnew := h.tracks.not_settled hp
  have htracks := h.tracks.settle hp stored
  have hcompleted := h.tracks.completed_eq hp stored
  obtain ⟨hsettled, hcalled, hstored, htells⟩ := h.answer hobtains
  rw [← hstored] at htracks hcompleted
  rw [← List.append_assoc]
  generalize deeds ++ .hears a result :: offers = all at *
  have hsettled' : settledIn (all ++ [.settles a, .calls hub (cycle.settle stored).2]) =
      settledIn deeds ++ [a] := by
    rw [settledIn_append, hsettled]
    rfl
  have hstored' : storedIn (all ++ [.settles a, .calls hub (cycle.settle stored).2]) =
      storedIn all := by
    rw [storedIn_append]
    exact List.append_nil _
  have hhears : (cycle.settle stored).2 = ls.filter (hearsOf all a) := by
    rw [hcompleted, ← hsettled]
    rfl
  refine ⟨?_, ?_, ?_⟩
  · rw [hsettled', hstored']
    exact htracks
  · have hcalled' : calledIn (all ++ [.settles a, .calls hub (cycle.settle stored).2]) =
        calledIn deeds ++ ls.filter (hearsOf all a) := by
      rw [calledIn_append, hcalled, hhears]
      simp [calledIn]
    rw [hcalled']
    apply (h.called.append_right _).trans
    apply filter_perm
    · intro l _
      have hmissing := l.missing_concat hnew
      unfold doneAfter hearsOf
      rw [hsettled', hstored', hsettled, hstored]
      by_cases ha : l.interest.contains a = true
      · rw [if_pos ha] at hmissing
        simp [ha, hmissing]
      · rw [if_neg ha, Nat.add_zero] at hmissing
        cases stored <;> simp [ha, hmissing, Listener.touches_concat]
    · intro l _ hdone
      have hmissing := l.missing_concat hnew
      unfold doneAfter at hdone
      by_cases ha : l.interest.contains a = true
      · rw [if_pos ha] at hmissing
        simp [hmissing] at hdone
      · simp [hearsOf, ha]
  · apply htells.append
    intro first b after heq
    cases first with
    | nil =>
        injection heq with ha hafter
        injection ha with ha
        subst ha
        rw [List.append_nil, ← hhears]
        exact ⟨hub, [], hafter.symm⟩
    | cons deed first =>
        have hmem : Deed.settles b ∈ [Deed.calls hub (cycle.settle stored).2] := by
          injection heq with _ hafter
          rw [hafter]
          simp
        simp at hmem

end

theorem waiting_perm :
    (calledIn deeds ++ cycle.waiting).Perm (ls.filter (·.touches (storedIn deeds))) := by
  rw [h.tracks.waiting_eq]
  apply (h.called.append_right _).trans
  apply filter_perm
  · intro l _
    unfold doneAfter
    by_cases hm : l.missing (settledIn deeds) = 0
    · simp [hm]
    · simp [hm, Nat.pos_of_ne_zero hm]
  · intro l _ hdone
    unfold doneAfter at hdone
    rw [Bool.and_eq_true, decide_eq_true_iff] at hdone
    simp [hdone.2]

theorem settled_prefix :
    settledIn deeds <+: (InterestMap.build (ls.map (·.interest))).addresses :=
  ⟨_, h.tracks.addresses_eq⟩

theorem settled_all (hp : cycle.pending = []) :
    settledIn deeds = (InterestMap.build (ls.map (·.interest))).addresses := by
  rw [← h.tracks.addresses_eq, hp, List.map_nil, List.append_nil]

end Accounts

structure Closes (ls : List HubListener) (deeds : List Deed) (result : RefreshResult) : Prop where
  called : (calledIn deeds).Perm (ls.filter (·.touches (storedIn deeds)))
  tells : Tells ls deeds
  settled : settledIn deeds <+: (InterestMap.build (ls.map (·.interest))).addresses
  ending : match result with
    | .ok _ => settledIn deeds = (InterestMap.build (ls.map (·.interest))).addresses
    | .error _ => ∃ before hub,
        deeds = before ++ [.abandons, .calls hub (ls.filter (waitsAfter before))]

namespace Accounts

variable {ls : List HubListener} {deeds : List Deed} {cycle : HubCycle}
  (h : Accounts ls deeds cycle)
include h

-- With all addresses settled nobody is left who waits.
theorem closes_ok (hp : cycle.pending = []) (values : AddressMap CachedValue) :
    Closes ls deeds (.ok values) where
  called := by
    have hdone : ls.filter (doneAfter deeds) = ls.filter (·.touches (storedIn deeds)) := by
      apply List.filter_congr
      intro l hl
      have hmissing : l.missing (settledIn deeds) = 0 := by
        rw [Listener.missing_eq_zero_iff, h.settled_all hp]
        intro a ha
        exact InterestMap.mem_addresses.mpr ⟨l.interest, List.mem_map_of_mem hl, ha⟩
      simp [doneAfter, hmissing]
    rw [← hdone]
    exact h.called
  tells := h.tells
  settled := h.settled_prefix
  ending := h.settled_all hp

theorem closes_error (hub : Hub) (e : HubError) :
    Closes ls (deeds ++ [.abandons, .calls hub cycle.waiting]) (.error e) := by
  have hsettled : settledIn (deeds ++ [.abandons, .calls hub cycle.waiting]) = settledIn deeds := by
    rw [settledIn_append]
    exact List.append_nil _
  have hstored : storedIn (deeds ++ [.abandons, .calls hub cycle.waiting]) = storedIn deeds := by
    rw [storedIn_append]
    exact List.append_nil _
  have hcalled : calledIn (deeds ++ [.abandons, .calls hub cycle.waiting]) =
      calledIn deeds ++ cycle.waiting := by
    rw [calledIn_append]
    simp [calledIn]
  refine ⟨?_, ?_, ?_, ?_⟩
  · rw [hcalled, hstored]
    exact h.waiting_perm
  · apply h.tells.append
    intro first a after heq
    have hmem : Deed.settles a ∈ [.abandons, .calls hub cycle.waiting] := by simp [heq]
    simp at hmem
  · rw [hsettled]
    exact h.settled_prefix
  · exact ⟨deeds, hub, by rw [h.tracks.waiting_eq]; rfl⟩

end Accounts

theorem Going.accounts {limit : Nat} {ls : List HubListener} {deeds : List Deed} {stage : Stage}
    (h : Going limit ls deeds stage) {cycle : HubCycle} (hc : stage.cycle? = some cycle) :
    Accounts ls deeds cycle := by
  induction h generalizing cycle with
  | begins hp =>
      cases hc
      exact .plan ls
  | asks h hp ih =>
      cases hc
      exact (ih rfl).quiet rfl rfl rfl
  | asksAgain h hp hresult ih =>
      cases hc
      exact (ih rfl).quiet rfl rfl rfl
  | settles h hp hrest hobtains ih =>
      cases hc
      exact (ih rfl).settle hp hobtains _

theorem Course.closes {limit : Nat} {ls : List HubListener} {deeds : List Deed}
    {result : RefreshResult} (h : Course limit ls deeds result) : Closes ls deeds result := by
  cases h with
  | beginsNothing hp => exact (Accounts.plan ls).closes_ok hp .empty
  | settlesLast h hp hobtains =>
      have haccounts := (h.accounts rfl).settle hp hobtains
      exact (haccounts _).closes_ok (by simp [Cycle.settle, hp]) _
  | @withdraws deeds cycle revision hub h =>
      have haccounts : Accounts ls (deeds ++ [.reserves revision]) cycle :=
        (h.accounts rfl).quiet rfl rfl rfl
      simpa using haccounts.closes_error hub .cancelled
  | givesUp h => exact (h.accounts rfl).closes_error _ .cancelled
  | @fails deeds cycle a watchers rest revision attempt due e hub h hp hresult hfound =>
      have haccounts : Accounts ls (deeds ++ [.hears a (.error e)]) cycle :=
        (h.accounts rfl).quiet rfl rfl rfl
      simpa using haccounts.closes_error hub (.refreshFailed a e)

-- Listeners that differ in their handles are told apart by them.
theorem countP_handle {ls called : List HubListener} {test : HubListener → Bool}
    (hunique : (ls.map (·.handle)).Nodup) (hperm : called.Perm (ls.filter test))
    {l : HubListener} (hl : l ∈ ls) :
    called.countP (fun m => decide (m.handle = l.handle)) = if test l then 1 else 0 := by
  rw [hperm.countP_eq, List.countP_filter]
  induction ls generalizing called with
  | nil => cases hl
  | cons m rest ih =>
      rw [List.map_cons, List.nodup_cons] at hunique
      rw [List.countP_cons]
      rcases List.mem_cons.mp hl with rfl | hrest
      · have hnone : rest.countP (fun x => decide (x.handle = l.handle) && test x) = 0 := by
          rw [List.countP_eq_zero]
          intro x hx
          have hne : x.handle ≠ l.handle := fun h => hunique.1 (h ▸ List.mem_map_of_mem hx)
          simp [hne]
        simp [hnone]
      · have hne : m.handle ≠ l.handle := fun h => hunique.1 (h ▸ List.mem_map_of_mem hrest)
        rw [ih hunique.2 (.refl _) hrest]
        simp [hne]

-- In every run, each refresh that comes to its end calls each of its listeners once if one of the
-- listener's addresses was stored, and not at all otherwise. The addresses are settled one after
-- another, and a listener hears of the last one of its own at once. If the refresh is given up, those
-- who still wait hear of it at the very end. The deeds tell of what has happened to the hub. Each call in
-- them has been recorded once, and the listener's reaction has been carried out.
theorem calls_of_refresh {s : System} (hs : s.Reachable) {id : TaskId} {r : Refresh}
    (hr : r ∈ refreshes (s.deeds id)) :
    (∀ l ∈ r.listeners, (calledIn r.deeds).countP (fun m => decide (m.handle = l.handle)) =
      if l.touches (storedIn r.deeds) then 1 else 0) ∧
    (∀ l ∈ calledIn r.deeds, l ∈ r.listeners) ∧
    settledIn r.deeds <+: (InterestMap.build (r.listeners.map (·.interest))).addresses ∧
    (∀ before a after, r.deeds = before ++ .settles a :: after →
      ∃ hub rest, after = .calls hub (r.listeners.filter (hearsOf before a)) :: rest) ∧
    s.CarriedOut id ∧
    match r.result with
    | .ok _ => settledIn r.deeds = (InterestMap.build (r.listeners.map (·.interest))).addresses
    | .error _ => ∃ before hub,
        r.deeds = before ++ [.abandons, .calls hub (r.listeners.filter (waitsAfter before))] := by
  obtain ⟨hunique, hcourse⟩ := (hs.documented.diligent id).made r hr
  have hcloses := hcourse.closes
  refine ⟨?_, ?_, hcloses.settled, hcloses.tells, s.carriedOut id, hcloses.ending⟩
  · intro l hl
    exact countP_handle hunique hcloses.called hl
  · intro l hl
    exact (List.mem_filter.mp (hcloses.called.mem_iff.mp hl)).1

-- Two listeners share an address. One has heard of it when the next address fails, and the other
-- one hears of the failure.
def overlapping : List System.Move :=
  [.act (.listen "first" [1, 2] []), .act (.listen "second" [2, 3] []), .spawn .refresh, .step 0,
    .step 0, .step 0, .step 0, .step 0, .step 0, .step 0,
    .gateway { source := .pump { model := .f1255, readFaults := .insert 3 [.fatal ""] .empty } },
    .step 0]

theorem calls_of_refresh_overlapping :
    (∃ r ∈ refreshes (((System.fresh {} .f1255 { source := .echo }).play overlapping).deeds 0),
      settledIn r.deeds = [1, 2] ∧
      (calledIn r.deeds).map (·.handle) = [.named "first", .named "second"] ∧
      (∀ l ∈ r.listeners, (calledIn r.deeds).countP (fun m => decide (m.handle = l.handle)) =
        if l.touches (storedIn r.deeds) then 1 else 0) ∧
      ((System.fresh {} .f1255 { source := .echo }).play overlapping).CarriedOut 0) ∧
    ((System.fresh {} .f1255 { source := .echo }).play overlapping).hub.history =
      [.called (.named "second") [some (.integer 2), none], .read 3,
        .called (.named "first") [some (.integer 1), some (.integer 2)], .read 2, .read 1] := by
  have hne : refreshes (((System.fresh {} .f1255 { source := .echo }).play overlapping).deeds 0) ≠
      [] := List.ne_nil_of_length_pos (by decide)
  obtain ⟨hcounts, -, -, -, hdone, -⟩ :=
    calls_of_refresh ⟨_, _, _, _, rfl⟩ (List.head_mem hne)
  exact ⟨⟨_, List.head_mem hne, rfl, rfl, hcounts, hdone⟩, rfl⟩

end CoilHub
