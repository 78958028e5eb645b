import CoilHub.Proofs.Cache.Refreshed
import CoilHub.Proofs.Refresh.Rehearsal
import CoilHub.Proofs.Writes.Effect

namespace CoilHub

theorem mem_watched {ls : List HubListener} {a : Address} :
    a ∈ watched ls ↔ ∃ l ∈ ls, a ∈ l.interest := by
  simp [watched, List.mem_eraseDups, AddressSet.mem_def]

theorem Going.asks_watched {limit : Nat} {ls : List HubListener} {deeds : List Deed} {stage : Stage}
    (h : Going limit ls deeds stage) : ∀ a ∈ asksIn deeds, a ∈ watched ls := by
  have hnext : ∀ {deeds stage cycle a watchers rest}, Going limit ls deeds stage →
      stage.cycle? = some cycle → cycle.pending = (a, watchers) :: rest → a ∈ watched ls := by
    intro deeds stage cycle a watchers rest h hc hp
    rw [← (h.accounts hc).settled_pending, hp]
    simp
  induction h with
  | begins => simp [asksIn]
  | @asks deeds cycle a watchers rest revision due h hp ih =>
      intro b hb
      rw [asksIn_append] at hb
      rcases List.mem_append.mp hb with hold | hnew
      · exact ih b hold
      · rw [List.mem_singleton.mp hnew]
        exact hnext h rfl hp
  | @asksAgain deeds cycle a watchers rest revision attempt due due' result h hp hresult ih =>
      intro b hb
      rw [asksIn_append] at hb
      rcases List.mem_append.mp hb with hold | hnew
      · exact ih b hold
      · rw [List.mem_singleton.mp hnew]
        exact hnext h rfl hp
  | settles h hp hrest hobtains ih =>
      intro b hb
      rw [asksIn_append] at hb
      rcases List.mem_append.mp hb with hold | hnew
      · exact ih b hold
      · cases hobtains <;> simp [asksIn] at hnew

theorem Course.asks_watched {limit : Nat} {ls : List HubListener} {deeds : List Deed}
    {result : RefreshResult} (h : Course limit ls deeds result) :
    ∀ a ∈ asksIn deeds, a ∈ watched ls := by
  cases h with
  | beginsNothing hp => simp [asksIn]
  | settlesLast h hp hobtains =>
      rw [asksIn_append]
      intro a ha
      rcases List.mem_append.mp ha with hold | hnew
      · exact h.asks_watched a hold
      · cases hobtains <;> simp [asksIn] at hnew
  | withdraws h => simpa [asksIn] using h.asks_watched
  | givesUp h => simpa [asksIn] using h.asks_watched
  | fails h hp hresult hfound => simpa [asksIn] using h.asks_watched

theorem Course.asks_all {limit : Nat} (hlimit : 1 ≤ limit) {ls : List HubListener}
    {deeds : List Deed} {values : AddressMap CachedValue} (h : Course limit ls deeds (.ok values)) :
    ∀ a ∈ watched ls, a ∈ asksIn deeds := by
  obtain ⟨blocks, hblocks⟩ := h.blockwise hlimit (by simp)
  intro a ha
  rw [← (hblocks.covers.mp ⟨values, rfl⟩).1] at ha
  obtain ⟨b, hb, rfl⟩ := List.mem_map.mp ha
  rw [hblocks.asks]
  refine List.mem_flatMap.mpr ⟨b, hb, List.mem_replicate.mpr ⟨?_, rfl⟩⟩
  have hsize := (hblocks.size b hb).1
  omega

namespace Diary

-- Whether all deeds that the refreshes of a diary consist of are of a certain kind.
structure All (P : Deed → Prop) (d : Diary) : Prop where
  made : ∀ r ∈ d.made, P (.begins r.listeners) ∧ ∀ deed ∈ r.deeds, P deed
  current : ∀ ls deeds, d.current = some (ls, deeds) → P (.begins ls) ∧ ∀ deed ∈ deeds, P deed

variable {P : Deed → Prop} {d : Diary}

theorem All.next (h : d.All P) {deed : Deed} (hdeed : P deed) : (d.next deed).All P := by
  unfold Diary.next
  split
  case h_1 ls =>
    refine ⟨h.made, fun ls' deeds heq => ?_⟩
    obtain ⟨rfl, rfl⟩ := Prod.mk.inj (Option.some.inj heq)
    exact ⟨hdeed, by simp⟩
  case h_2 result ls deeds hcurrent =>
    refine ⟨fun r hr => ?_, nofun⟩
    rcases List.mem_append.mp hr with hold | hnew
    · exact h.made r hold
    · rw [List.mem_singleton.mp hnew]
      exact h.current ls deeds hcurrent
  case h_3 deed' ls deeds _ _ hcurrent =>
    refine ⟨h.made, fun ls' deeds' heq => ?_⟩
    obtain ⟨rfl, rfl⟩ := Prod.mk.inj (Option.some.inj heq)
    obtain ⟨hbegins, hall⟩ := h.current ls deeds hcurrent
    refine ⟨hbegins, fun deed'' hmem => ?_⟩
    rcases List.mem_append.mp hmem with hold | hnew
    · exact hall deed'' hold
    · rw [List.mem_singleton.mp hnew]
      exact hdeed
  case h_4 => exact h

theorem All.write (h : d.All P) {deeds : List Deed} (hdeeds : ∀ deed ∈ deeds, P deed) :
    (d.write deeds).All P := by
  induction deeds generalizing d with
  | nil => exact h
  | cons deed rest ih =>
      exact ih (h.next (hdeeds deed List.mem_cons_self))
        fun deed' hmem => hdeeds deed' (List.mem_cons_of_mem deed hmem)

end Diary

-- Two refreshes with the same listeners, except for how these react, whose reads are answered from
-- the same sequence of answers.
structure Alike (ls ls' : List HubListener) (deeds deeds' : List Deed) : Prop where
  listeners : ls.map (·.passive) = ls'.map (·.passive)
  answers : ∃ answers, resultsIn deeds <+: answers ∧ resultsIn deeds' <+: answers

-- Two refreshes that have got equally far.
structure Level (deeds deeds' : List Deed) : Prop where
  attempts : (asksIn deeds).length = (asksIn deeds').length
  answers : (resultsIn deeds).length = (resultsIn deeds').length

namespace Level

variable {ls ls' : List HubListener} {deeds deeds' : List Deed}

theorem unanswered_eq (h : Level deeds deeds') : unanswered deeds = unanswered deeds' := by
  have hanswers := h.answers
  rw [resultsIn, resultsIn, List.length_map, List.length_map] at hanswers
  unfold unanswered
  rw [hanswers, h.attempts]

theorem resultsIn_eq (h : Level deeds deeds') (halike : Alike ls ls' deeds deeds') :
    resultsIn deeds = resultsIn deeds' := by
  obtain ⟨answers, hbefore, hbefore'⟩ := halike.answers
  have hprefix := List.prefix_of_prefix_length_le hbefore hbefore' (Nat.le_of_eq h.answers)
  exact hprefix.eq_of_length h.answers

end Level

namespace Accords

variable {limit : Nat} {ls : List (Listener Handle Unit)} {deeds deeds' : List Deed}
  {result result' : RefreshResult}

-- A rehearsal that does not end with the answers of one refresh does not end with fewer of them.
theorem answers_eq (h : Accords limit ls deeds result) (h' : Accords limit ls deeds' result')
    (hresult : result ≠ .error .cancelled) (hbefore : resultsIn deeds <+: resultsIn deeds') :
    resultsIn deeds = resultsIn deeds' := by
  by_contra hne
  apply hresult
  rw [h.outcome]
  exact Rehearsal.result_of_isOpen (h'.goesOn _ hbefore hne)

theorem same_of_answers (h : Accords limit ls deeds result) (h' : Accords limit ls deeds' result')
    (hanswers : resultsIn deeds = resultsIn deeds') (hopen : unanswered deeds = unanswered deeds') :
    actsIn deeds = actsIn deeds' ∧ result = result' := by
  rw [h.acts, h.outcome, h'.acts, h'.outcome, hanswers, hopen]
  exact ⟨rfl, rfl⟩

end Accords

-- The addresses that a refresh reads are those that its listeners watch.
structure Fetches (r : Refresh) : Prop where
  watched : ∀ a ∈ asksIn r.deeds, ∃ l ∈ r.listeners, a ∈ l.interest
  all : (∃ values, r.result = .ok values) → ∀ l ∈ r.listeners, ∀ a ∈ l.interest, a ∈ asksIn r.deeds

namespace System

variable {s s' : System} {id id' : TaskId}

theorem diary_all (s : System) (id : TaskId) : (s.diary id).All (· ∈ s.deeds id) := by
  have hempty : Diary.All (· ∈ s.deeds id) {} := ⟨nofun, nofun⟩
  exact hempty.write fun _ hmem => hmem

theorem Reachable.accepted (hs : s.Reachable) (hcount : (revisionsIn s.log).length < 2 ^ 64)
    {deeds : List Deed} (hdeeds : ∀ deed ∈ deeds, deed ∈ s.deeds id) : Accepted deeds := by
  intro offer hmem
  obtain ⟨deed, hdeed, hoffer⟩ := List.mem_filterMap.mp hmem
  apply (hs.numbered hcount).stored
  exact List.mem_filterMap.mpr ⟨deed, mem_log (hdeeds deed hdeed), hoffer⟩

theorem Reachable.accords (hs : s.Reachable) (hcount : (revisionsIn s.log).length < 2 ^ 64)
    {r : Refresh} (hr : r ∈ refreshes (s.deeds id)) :
    Accords (Retry.limit s.hub.settings.readRetries) (r.listeners.map (·.passive)) r.deeds
      r.result := by
  have hwritten := (s.diary_all id).made r hr
  have hcourse := ((hs.documented.diligent id).made r hr).2
  exact hcourse.accords (Nat.le_max_left 1 _) (hs.accepted hcount hwritten.2)

theorem Reachable.acts_underway (hs : s.Reachable) (hcount : (revisionsIn s.log).length < 2 ^ 64)
    {ls : List HubListener} {deeds : List Deed}
    (hcurrent : (s.diary id).current = some (ls, deeds)) :
    actsIn deeds = (Rehearsal.rehearse (Retry.limit s.hub.settings.readRetries)
      (ls.map (·.passive)) (resultsIn deeds)).soFar (unanswered deeds) := by
  have hwritten := (s.diary_all id).current ls deeds hcurrent
  have habreast := (hs.documented.diligent id).abreast
  rw [hcurrent] at habreast
  obtain ⟨-, hgoing⟩ := habreast
  obtain ⟨cycle, hcycle⟩ := Option.ne_none_iff_exists'.mp hgoing.cycle?_ne_none
  exact (hgoing.follows (Nat.le_max_left 1 _) hcycle (hs.accepted hcount hwritten.2)).acts

theorem Reachable.fetches (hs : s.Reachable) {r : Refresh} (hr : r ∈ refreshes (s.deeds id)) :
    Fetches r := by
  have hcourse := ((hs.documented.diligent id).made r hr).2
  refine ⟨fun a ha => mem_watched.mp (hcourse.asks_watched a ha), ?_⟩
  rintro ⟨values, hvalues⟩ l hl a ha
  rw [hvalues] at hcourse
  exact hcourse.asks_all (Nat.le_max_left 1 _) a (mem_watched.mpr ⟨l, hl, ha⟩)

theorem begins_of_turn (ht : Turn id s s') {ls : List HubListener}
    (hmem : .begins ls ∈ doneSince s s' id) :
    ls = s.hub.registry.listeners ∧ s.stage? id = some .awaitingCycle ∧
      s.cycleLock.holder = some id ∧ s.hub.cancelled = false := by
  have hnone : ∀ {next cycleLock transport cache success deeds},
      Turned id s next cycleLock transport cache success deeds s' → (∀ ls, .begins ls ∉ deeds) →
      False := by
    intro next cycleLock transport cache success deeds h hdeeds
    rw [doneSince_of_deeds_eq h.deeds_self] at hmem
    exact hdeeds ls hmem
  cases ht with
  | stays hs _ =>
      rw [hs, doneSince_of_deeds_eq (List.append_nil _).symm] at hmem
      cases hmem
  | queues hjob hr hst hfrom h => exact (hnone h (by simp)).elim
  | queuesWrite hjob hst hc h => exact (hnone h (by simp)).elim
  | declinesWrite hjob hst hc h => exact (hnone h (by simp)).elim
  | rests hjob hw hst hfrom h => exact (hnone h (by simp)).elim
  | ends hjob hother hst hfrom h => exact (hnone h (by simp)).elim
  | declines hjob hst hl hc h => exact (hnone h (by simp)).elim
  | beginsNothing hjob hst hl hc hp h =>
      rw [doneSince_of_deeds_eq h.deeds_self] at hmem
      exact ⟨by simpa using hmem, hst, hl, hc⟩
  | begins hst hl hc hp h =>
      rw [doneSince_of_deeds_eq h.deeds_self] at hmem
      exact ⟨by simpa using hmem, hst, hl, hc⟩
  | asks hst hp hl hc h => exact (hnone h (by simp)).elim
  | withdraws hjob hst hp hl hc hhub h => exact (hnone h (by simp)).elim
  | asksAgain hst hp hc hresult h => exact (hnone h (by simp)).elim
  | settles hst hp hrest hc hobtains hhub h =>
      exact (hnone h (by cases hobtains <;> simp)).elim
  | settlesLast hjob hst hp hc hobtains hhub h =>
      exact (hnone h (by cases hobtains <;> simp)).elim
  | givesUp hjob hst hp hc hhub h => exact (hnone h (by simp)).elim
  | @fails job cycle a watchers rest revision attempt due e hub last hjob hst hp hc hresult hfound
      hhub hlast h =>
      refine (hnone h fun ls hmem => ?_).elim
      rcases toldAfter_calls job (.error (.refreshFailed a e)) last with htold | ⟨told, ls, htold⟩
      · simp [htold] at hmem
      · simp [htold] at hmem
  | sends hst hl h => exact (hnone h (by simp)).elim
  | refused hst h => exact (hnone h (by simp)).elim
  | @acknowledged a value ack revision hadData cache offers stored hub hst hobtains hhub h =>
      exact (hnone h (by cases hobtains <;> cases hadData <;> simp)).elim

theorem step_awaitingCycle (hst : s.stage? id = some .awaitingCycle)
    (hl : s.cycleLock.holder = some id) : s.step id = s.beginCycle id := by
  obtain ⟨t, ht, hstage⟩ := Option.map_eq_some_iff.mp hst
  simp [step, enabled, ht, hstage, Lock.isHeldBy, hl]

theorem begins_step (hst : s.stage? id = some .awaitingCycle) (hl : s.cycleLock.holder = some id)
    (hc : s.hub.cancelled = false) :
    .begins s.hub.registry.listeners ∈ doneSince s (s.step id) id := by
  have hb := (Turned.start hst).note (.begins s.hub.registry.listeners)
  obtain ⟨job, hjob⟩ := job?_of_stage? hst
  rw [step_awaitingCycle hst hl, beginCycle, hc]
  by_cases hp : (Cycle.plan s.hub.registry.listeners).pending = []
  · exact (doneSince_of_deeds_eq (hb.proceed_nil hjob hp).deeds_self) ▸ by simp
  · exact (doneSince_of_deeds_eq (hb.proceed_cons hp).deeds_self) ▸ by simp

-- An acknowledged write calls those who watch its address by then, unless nothing was cached.
theorem calls_of_write (hs : s.Reachable) {a : Address} {value : CoilValue} {revision : UInt64}
    {hadData : Bool} (hst : s.stage? id = some (.writing a value revision hadData))
    (ls : List HubListener) :
    (∃ hub, .calls hub ls ∈ doneSince s (s.step id) id) ↔
      ls = s.hub.registry.watching a ∧ s.hub.cache.isEmpty = false ∧
        ∃ ack, (s.hub.finishWrite a value).1 = .ok ack := by
  cases hresult : (s.hub.finishWrite a value).1 with
  | error e =>
      have hfails := writeFails_step hst (Prod.ext hresult rfl)
      rw [doneSince_of_deeds_eq hfails.deeds]
      simp
  | ok ack =>
      have hsucceeds := writeSucceeds_step hs hst (Prod.ext hresult rfl)
      obtain ⟨stored, hdeeds⟩ := hsucceeds.deeds
      rw [doneSince_of_deeds_eq hdeeds]
      cases hempty : s.hub.cache.isEmpty with
      | true => simp
      | false => simp [Hub.concerned, hempty]

-- Refreshes with the same handles and interests and the same answers read the same addresses, call
-- the same listeners and have the same result, whatever becomes of the registry meanwhile. A
-- refresh goes by the listeners that are registered when it obtains the cycle lock, and a write by
-- those that are registered when it is answered.
theorem registrations_deferred (hs : s.Reachable) (hs' : s'.Reachable)
    (hlimit : s.hub.settings.readRetries = s'.hub.settings.readRetries)
    (hcount : (revisionsIn s.log).length < 2 ^ 64)
    (hcount' : (revisionsIn s'.log).length < 2 ^ 64) :
    (∀ id id', ∀ r ∈ refreshes (s.deeds id), ∀ r' ∈ refreshes (s'.deeds id'),
      Alike r.listeners r'.listeners r.deeds r'.deeds →
      (r.result ≠ .error .cancelled ∧ r'.result ≠ .error .cancelled) ∨ Level r.deeds r'.deeds →
        actsIn r.deeds = actsIn r'.deeds ∧ r.result = r'.result) ∧
    (∀ id id' ls ls' deeds deeds', (s.diary id).current = some (ls, deeds) →
      (s'.diary id').current = some (ls', deeds') → Alike ls ls' deeds deeds' →
      Level deeds deeds' → actsIn deeds = actsIn deeds') ∧
    (∀ id ls, .begins ls ∈ doneSince s (s.step id) id ↔
      ls = s.hub.registry.listeners ∧ s.stage? id = some .awaitingCycle ∧
        s.cycleLock.holder = some id ∧ s.hub.cancelled = false) ∧
    (∀ id, ∀ r ∈ refreshes (s.deeds id), .begins r.listeners ∈ s.deeds id ∧ Fetches r ∧
      (r.result = .error .cancelled → s.hub.cancelled = true)) ∧
    (∀ id a value revision hadData, s.stage? id = some (.writing a value revision hadData) →
      ∀ ls, (∃ hub, .calls hub ls ∈ doneSince s (s.step id) id) ↔
        ls = s.hub.registry.watching a ∧ s.hub.cache.isEmpty = false ∧
          ∃ ack, (s.hub.finishWrite a value).1 = .ok ack) := by
  refine ⟨?_, ?_, ?_, ?_, ?_⟩
  · intro id id' r hr r' hr' halike hends
    have haccords := hs.accords hcount hr
    have haccords' := hs'.accords hcount' hr'
    rw [← hlimit, ← halike.listeners] at haccords'
    rcases hends with ⟨hresult, hresult'⟩ | hlevel
    · have hopen : unanswered r.deeds = unanswered r'.deeds :=
        (haccords.answered hresult).trans (haccords'.answered hresult').symm
      obtain ⟨answers, hbefore, hbefore'⟩ := halike.answers
      rcases Nat.le_total (resultsIn r.deeds).length (resultsIn r'.deeds).length with hle | hle
      · have hprefix := List.prefix_of_prefix_length_le hbefore hbefore' hle
        exact haccords.same_of_answers haccords'
          (haccords.answers_eq haccords' hresult hprefix) hopen
      · have hprefix := List.prefix_of_prefix_length_le hbefore' hbefore hle
        exact haccords.same_of_answers haccords'
          (haccords'.answers_eq haccords hresult' hprefix).symm hopen
    · exact haccords.same_of_answers haccords' (hlevel.resultsIn_eq halike) hlevel.unanswered_eq
  · intro id id' ls ls' deeds deeds' hcurrent hcurrent' halike hlevel
    rw [hs.acts_underway hcount hcurrent, hs'.acts_underway hcount' hcurrent', hlimit,
      halike.listeners, hlevel.resultsIn_eq halike, hlevel.unanswered_eq]
  · intro id ls
    constructor
    · exact begins_of_turn (step_turn s id)
    · rintro ⟨rfl, hst, hl, hc⟩
      exact begins_step hst hl hc
  · intro id r hr
    refine ⟨((s.diary_all id).made r hr).1, hs.fetches hr, fun hresult => ?_⟩
    rcases made_outcomes {} (s.deeds id) r hr with hnone | hmem
    · cases hnone
    · exact hs.honest (mem_log (hresult ▸ hmem))
  · exact fun id a value revision hadData hst ls => calls_of_write hs hst ls

-- A refresh of three listeners. The first one may do something when it is called, and somebody else
-- may do something after the refresh has begun.
def threeRefreshed (reaction : List (Option Nat × Action)) (meanwhile : List Move) : System :=
  (fresh {} .f1255 { source := .echo }).play
    ([.act (.listen "first" [1, 2] reaction), .act (.listen "second" [1, 3] []),
      .act (.listen "third" [2, 3] []), .spawn .refresh, .step 0, .step 0] ++ meanwhile ++
      .replicate 6 (.step 0))

-- The second listener goes before it is reached, the third one takes to another address, and a
-- fourth one comes.
def disturbed : System :=
  threeRefreshed [(none, .unlisten "second"), (none, .listen "fourth" [7] [])]
    [.act (.listen "third" [9] [])]

-- A refresh that has read three values on behalf of these listeners.
def ReadsThree (r : Refresh) : Prop :=
  r.listeners.map (·.passive) =
      [{ handle := .named "first", interest := .ofList [1, 2], reaction := () },
        { handle := .named "second", interest := .ofList [1, 3], reaction := () },
        { handle := .named "third", interest := .ofList [2, 3], reaction := () }] ∧
    resultsIn r.deeds = [.ok (.integer 1), .ok (.integer 2), .ok (.integer 3)] ∧
    ∃ values, r.result = .ok values

theorem registrations_deferred_disturbed :
    ∃ r ∈ refreshes (disturbed.deeds 0), ∃ r' ∈ refreshes ((threeRefreshed [] []).deeds 0),
      actsIn r.deeds = [.reads 1, .reads 2, .calls (.named "first"), .reads 3,
        .calls (.named "second"), .calls (.named "third")] ∧
      disturbed.hub.registry.listeners.map (fun l => (l.handle, l.interest.elems)) =
        [(.named "first", [1, 2]), (.named "third", [9]), (.named "fourth", [7])] ∧
      actsIn r.deeds = actsIn r'.deeds ∧ r.result = r'.result := by
  have hne : refreshes (disturbed.deeds 0) ≠ [] := List.ne_nil_of_length_pos (by decide)
  have hne' : refreshes ((threeRefreshed [] []).deeds 0) ≠ [] :=
    List.ne_nil_of_length_pos (by decide)
  obtain ⟨r, hr, hacts, hlisteners, hanswers, values, hvalues⟩ :
      ∃ r ∈ refreshes (disturbed.deeds 0), actsIn r.deeds = [.reads 1, .reads 2,
        .calls (.named "first"), .reads 3, .calls (.named "second"), .calls (.named "third")] ∧
        ReadsThree r := ⟨_, List.head_mem hne, rfl, rfl, rfl, _, rfl⟩
  obtain ⟨r', hr', hlisteners', hanswers', values', hvalues'⟩ :
      ∃ r ∈ refreshes ((threeRefreshed [] []).deeds 0), ReadsThree r :=
    ⟨_, List.head_mem hne', rfl, rfl, _, rfl⟩
  have hs : disturbed.Reachable := ⟨_, _, _, _, rfl⟩
  have hs' : (threeRefreshed [] []).Reachable := ⟨_, _, _, _, rfl⟩
  have hsame := (registrations_deferred hs hs' rfl (by decide) (by decide)).1 0 0 r hr r' hr'
  refine ⟨r, hr, r', hr', hacts, rfl, hsame ?_ ?_⟩
  · have heq : resultsIn r'.deeds = resultsIn r.deeds := hanswers'.trans hanswers.symm
    exact ⟨hlisteners.trans hlisteners'.symm, _, List.prefix_refl _, heq ▸ List.prefix_refl _⟩
  · rw [hvalues, hvalues']
    exact .inl ⟨nofun, nofun⟩

end System

end CoilHub
