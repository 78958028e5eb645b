import CoilHub.Proofs.Interleaving.Enactment
import CoilHub.Proofs.Refresh.Calls

namespace CoilHub

-- Whether the success or failure of a job's refreshes is kept.
def Job.keepsOutcome : Job → Bool
  | .cycle | .updates _ => true
  | _ => false

def outcomesIn (deeds : List Deed) : List RefreshResult :=
  deeds.filterMap fun
    | .returns result => some result
    | _ => none

namespace Entity

-- The listener by which an entity learns of its coil.
def listener (e : Entity) : HubListener where
  handle := e.handle
  interest := .ofList [e.coil.address]
  reaction :=
    { looksAt := [e.coil.address], effect := .display e.index e.coil.address }

def Attached (e : Entity) (hub : Hub) : Prop := e.listener ∈ hub.registry.listeners

theorem attached_attach (hub : Hub) (coil : Coil) :
    (attach hub coil).1.Attached (attach hub coil).2 :=
  Registry.mem_place_self _ _

end Entity

namespace System

variable {s s' : System} {id : TaskId} {e : Entity}

-- What a turn of a task that keeps the outcome of its refreshes means for an entity: whether its
-- coil is cached, how the success flag stands, and who has been called at which moment.
structure Concerns (s : System) (e : Entity) (next : Stage) (cache : Cache) (success : Bool)
    (more : List Deed) : Prop where
  cached : cache.contains e.coil.address = s.hub.cache.contains e.coil.address ∨
    cache.contains e.coil.address = true ∧ ∃ hub ls, .calls hub ls ∈ more ∧ e.listener ∈ ls ∧
      hub.cache.contains e.coil.address = true
  success : (success = s.hub.lastSuccess ∨ success = true ∧ outcomesIn more ≠ []) ∧
      (∀ hub ls, .calls hub ls ∈ more → hub.lastSuccess = s.hub.lastSuccess) ∨
    success = false ∧ s.hub.lastSuccess = true ∧ outcomesIn more ≠ [] ∧
      cache.contains e.coil.address = s.hub.cache.contains e.coil.address ∧
      ∃ hub ls, .calls hub ls ∈ more ∧ e.listener ∈ ls ∧ hub.lastSuccess = false
  listens : ∀ cycle, next.cycle? = some cycle → e.listener ∈ cycle.listeners

theorem concerns_quiet {next : Stage} {cache : Cache} {more : List Deed}
    (hcache : cache.contains e.coil.address = s.hub.cache.contains e.coil.address)
    (hcalls : ∀ hub ls, .calls hub ls ∉ more)
    (hlistens : ∀ cycle, next.cycle? = some cycle → e.listener ∈ cycle.listeners) :
    Concerns s e next cache s.hub.lastSuccess more :=
  ⟨.inl hcache, .inl ⟨.inl rfl, fun hub ls hmem => absurd hmem (hcalls hub ls)⟩, hlistens⟩

theorem successAfter_ok {job : Job} (hkeeps : job.keepsOutcome = true)
    (values : AddressMap CachedValue) (before : Bool) :
    successAfter job (.ok values) before = true := by
  cases job <;> first | rfl | cases hkeeps

theorem listens_stageAfter (job : Job) (result : RefreshResult) (l : HubListener)
    (cycle : HubCycle) (h : (stageAfter job result).cycle? = some cycle) : l ∈ cycle.listeners := by
  rw [stageAfter_cycle?] at h
  cases h

-- A cycle that is given up calls listeners, but tells them nothing new.
theorem concerns_withdrawal {job : Job} (cache : Cache) {hub : Hub} (first : List Deed)
    (ls : List HubListener) (result : RefreshResult)
    (hhub : Hub.Kept { s.hub with cache } hub) (hcache : cache.entries = s.hub.cache.entries)
    (hfirst : ∀ hub ls, .calls hub ls ∉ first) :
    Concerns s e (stageAfter job (.error .cancelled)) cache s.hub.lastSuccess
      (first ++ [.abandons, .calls hub ls, .returns result]) := by
  refine ⟨.inl ?_, .inl ⟨.inl rfl, ?_⟩, listens_stageAfter _ _ _⟩
  · unfold Cache.contains
    rw [hcache]
  · intro hub' ls' hmem
    rcases List.mem_append.mp hmem with hmem | hmem
    · exact absurd hmem (hfirst hub' ls')
    · simp only [List.mem_cons, reduceCtorEq, Deed.calls.injEq, false_or, List.not_mem_nil,
        or_false] at hmem
      rw [hmem.1]
      exact hhub.success

section

variable {cycle : HubCycle} {a : Address} {watchers : List Nat} {rest : List (Address × List Nat)}
  {revision : UInt64} {attempt due : Nat} {result : FetchResult CoilValue} {cache : Cache}
  {offers : List Deed} {stored : Option CachedValue} {hub : Hub}

theorem cycle_tracks (hs : s.Reachable)
    (hst : s.stage? id = some (.reading cycle revision attempt due)) :
    ∃ settled refreshed, cycle.Tracks cycle.listeners settled refreshed := by
  have hdiligent := hs.documented.diligent id
  rw [hst] at hdiligent
  have hcycle : (Stage.reading cycle revision attempt due).cycle? = some cycle := rfl
  obtain ⟨ls, deeds, -, -, hgoing⟩ := hdiligent.current_eq_some hcycle
  have htracks := (hgoing.accounts rfl).tracks
  exact ⟨_, _, htracks.listeners ▸ htracks⟩

-- An entity whose coil has just been stored has no other address to wait for.
theorem called_of_stored (hs : s.Reachable)
    (hst : s.stage? id = some (.reading cycle revision attempt due))
    (hp : cycle.pending = (e.coil.address, watchers) :: rest) (hl : e.listener ∈ cycle.listeners)
    (cached : CachedValue) : e.listener ∈ (cycle.settle (some cached)).2 := by
  obtain ⟨settled, refreshed, htracks⟩ := cycle_tracks hs hst
  have hinterest : ∀ b, b ∈ e.listener.interest ↔ b = e.coil.address := by
    intro b
    show b ∈ AddressSet.ofList [e.coil.address] ↔ _
    rw [AddressSet.mem_ofList, List.mem_singleton]
  have hcontains : e.listener.interest.contains e.coil.address = true := by
    rw [AddressSet.contains_iff, hinterest]
  have hmissing : e.listener.missing (settled ++ [e.coil.address]) = 0 := by
    rw [Listener.missing_eq_zero_iff]
    intro b hb
    rw [(hinterest b).mp hb]
    simp
  rw [htracks.completed_eq hp]
  simp [List.mem_filter, hl, hcontains, hmissing, Listener.touches_concat]

theorem cached_or_called (hs : s.Reachable)
    (hst : s.stage? id = some (.reading cycle revision attempt due))
    (hp : cycle.pending = (a, watchers) :: rest)
    (hobtains : Obtains s.hub.cache revision a result cache offers stored)
    (hl : e.listener ∈ cycle.listeners) :
    cache.contains e.coil.address = s.hub.cache.contains e.coil.address ∨
      cache.contains e.coil.address = true ∧ e.listener ∈ (cycle.settle stored).2 := by
  cases hobtains with
  | missing b => exact .inl rfl
  | refused h => exact .inl rfl
  | @stored value _ hstore =>
      rw [Cache.contains_eq, Cache.contains_eq, Cache.get?_of_store? hstore]
      by_cases ha : e.coil.address = a
      · subst ha
        exact .inr ⟨by simp, called_of_stored hs hst hp hl _⟩
      · exact .inl (by rw [if_neg ha])

theorem concerns_settle {next : Stage} {success : Bool} (last : List Deed) (hs : s.Reachable)
    (hst : s.stage? id = some (.reading cycle revision attempt due))
    (hp : cycle.pending = (a, watchers) :: rest)
    (hobtains : Obtains s.hub.cache revision a result cache offers stored)
    (hhub : Hub.Kept { s.hub with cache } hub) (hl : e.listener ∈ cycle.listeners)
    (hlast : ∀ hub ls, .calls hub ls ∉ last)
    (hsuccess : success = s.hub.lastSuccess ∨ success = true ∧ outcomesIn last ≠ [])
    (hlistens : ∀ cycle, next.cycle? = some cycle → e.listener ∈ cycle.listeners) :
    Concerns s e next cache success
      (.hears a result :: offers ++ .settles a :: .calls hub (cycle.settle stored).2 :: last) := by
  refine ⟨?_, .inl ⟨?_, ?_⟩, hlistens⟩
  · rcases cached_or_called hs hst hp hobtains hl with hsame | ⟨hcached, hcalled⟩
    · exact .inl hsame
    · refine .inr ⟨hcached, hub, _, by simp, hcalled, ?_⟩
      have hcache : hub.cache = cache := hhub.cache
      rw [hcache]
      exact hcached
  · rcases hsuccess with hsame | ⟨htrue, hreturned⟩
    · exact .inl hsame
    · refine .inr ⟨htrue, ?_⟩
      cases hobtains <;> exact hreturned
  · intro hub' ls hmem
    have hcases : hub' = hub ∧ ls = (cycle.settle stored).2 ∨ .calls hub' ls ∈ last := by
      cases hobtains <;> simpa using hmem
    rcases hcases with ⟨rfl, -⟩ | hmem
    · exact hhub.success
    · exact absurd hmem (hlast hub' ls)

end

theorem concerns_failure {job : Job} {hub last : Hub} (first : List Deed) (ls : List HubListener)
    (a : Address) (fault : FetchError) (hs : s.Reachable) (hkeeps : job.keepsOutcome = true)
    (he : e.Attached s.hub) (hhub : s.hub.Kept hub) (hlast : s.hub.Kept last)
    (hfirst : ∀ hub ls, .calls hub ls ∉ first) :
    Concerns s e (stageAfter job (.error (.refreshFailed a fault))) s.hub.cache
      (successAfter job (.error (.refreshFailed a fault)) s.hub.lastSuccess)
      (first ++ .abandons :: .calls hub ls :: .returns (.error (.refreshFailed a fault)) ::
        toldAfter job (.error (.refreshFailed a fault)) last) := by
  have hfalse : successAfter job (.error (.refreshFailed a fault)) s.hub.lastSuccess = false := by
    cases job <;> first | rfl | cases hkeeps
  have htold : toldAfter job (.error (.refreshFailed a fault)) last =
      if s.hub.lastSuccess then [.calls { last with lastSuccess := false } last.registry.listeners]
      else [] := by
    rw [← hlast.success]
    cases job <;> first | rfl | cases hkeeps
  rw [hfalse, htold]
  refine ⟨.inl rfl, ?_, listens_stageAfter _ _ _⟩
  cases hsuccess : s.hub.lastSuccess with
  | true =>
      refine .inr ⟨rfl, rfl, by simp [outcomesIn], rfl, ?_⟩
      have hattached := hlast.entities _ he e.index (hs.seated _ he e.index rfl) rfl
      exact ⟨{ last with lastSuccess := false }, _, by simp, hattached, rfl⟩
  | false =>
      refine .inl ⟨.inl rfl, ?_⟩
      intro hub' ls' hmem
      rcases List.mem_append.mp hmem with hmem | hmem
      · exact absurd hmem (hfirst hub' ls')
      · have heq : hub' = hub ∧ ls' = ls := by simpa using hmem
        rw [heq.1, ← hsuccess]
        exact hhub.success

theorem Turn.concerns (ht : Turn id s s') (hs : s.Reachable) {job : Job}
    (hjob : s.job? id = some job) (hkeeps : job.keepsOutcome = true) (he : e.Attached s.hub)
    (hlistens : ∀ stage cycle, s.stage? id = some stage → stage.cycle? = some cycle →
      e.listener ∈ cycle.listeners) :
    s' = s ∨ ∃ next cycleLock transport cache success more,
      Turned id s next cycleLock transport cache success more s' ∧
        Concerns s e next cache success more := by
  cases ht with
  | stays hs' _ => exact .inl hs'
  | queues hjob' hr hst hfrom h =>
      exact .inr ⟨_, _, _, _, _, _, h, concerns_quiet rfl (by simp) nofun⟩
  | queuesWrite hjob' hst hc h =>
      exact .inr ⟨_, _, _, _, _, _, h, concerns_quiet rfl (by simp) nofun⟩
  | declinesWrite hjob' hst hc h =>
      exact .inr ⟨_, _, _, _, _, _, h, concerns_quiet rfl (by simp) nofun⟩
  | rests hjob' hw hst hfrom h =>
      exact .inr ⟨_, _, _, _, _, _, h, concerns_quiet rfl (by simp) nofun⟩
  | ends hjob' hother hst hfrom h =>
      exact .inr ⟨_, _, _, _, _, _, h, concerns_quiet rfl (by simp) nofun⟩
  | declines hjob' hst hl hc h =>
      exact .inr ⟨_, _, _, _, _, _, h,
        concerns_quiet rfl (by simp) (listens_stageAfter _ _ _)⟩
  | beginsNothing hjob' hst hl hc hp h =>
      rw [hjob] at hjob'
      cases hjob'
      refine .inr ⟨_, _, _, _, _, _, h, .inl rfl, .inl ⟨.inr ⟨?_, ?_⟩, ?_⟩, listens_stageAfter _ _ _⟩
      · exact successAfter_ok hkeeps _ _
      · simp [outcomesIn]
      · simp
  | begins hst hl hc hp h =>
      refine .inr ⟨_, _, _, _, _, _, h, concerns_quiet rfl (by simp) ?_⟩
      intro cycle hcycle
      cases hcycle
      exact he
  | asks hst hp hl hc h =>
      refine .inr ⟨_, _, _, _, _, _, h, concerns_quiet rfl (by simp) ?_⟩
      intro cycle hcycle
      exact hlistens _ cycle hst hcycle
  | withdraws hjob' hst hp hl hc hhub h =>
      exact .inr ⟨_, _, _, _, _, _, h,
        concerns_withdrawal _ [.reserves _] _ _ hhub rfl (by simp)⟩
  | asksAgain hst hp hc hresult h =>
      refine .inr ⟨_, _, _, _, _, _, h, concerns_quiet rfl (by simp) ?_⟩
      intro cycle hcycle
      exact hlistens _ cycle hst hcycle
  | @settles cycle a watchers rest revision attempt due result cache offers stored hub hst hp hrest hc
      hobtains hhub h =>
      have hl := hlistens _ cycle hst rfl
      refine .inr ⟨_, _, _, _, _, _, h,
        concerns_settle [] hs hst hp hobtains hhub hl (by simp) (.inl rfl) ?_⟩
      intro next hnext
      cases hnext
      obtain ⟨settled, refreshed, htracks⟩ := cycle_tracks hs hst
      rw [(htracks.settle hp stored).listeners]
      exact hl
  | settlesLast hjob' hst hp hc hobtains hhub h =>
      rw [hjob] at hjob'
      cases hjob'
      exact .inr ⟨_, _, _, _, _, _, h,
        concerns_settle [.returns _] hs hst hp hobtains hhub (hlistens _ _ hst rfl) (by simp)
          (.inr ⟨successAfter_ok hkeeps _ _, by simp [outcomesIn]⟩) (listens_stageAfter _ _ _)⟩
  | givesUp hjob' hst hp hc hhub h =>
      exact .inr ⟨_, _, _, _, _, _, h,
        concerns_withdrawal s.hub.cache [] _ _ hhub rfl (by simp)⟩
  | fails hjob' hst hp hc hresult hfound hhub hlast h =>
      rw [hjob] at hjob'
      cases hjob'
      exact .inr ⟨_, _, _, _, _, _, h,
        concerns_failure [.hears _ _] _ _ _ hs hkeeps he hhub hlast (by simp)⟩
  | sends hst hl h => exact .inr ⟨_, _, _, _, _, _, h, concerns_quiet rfl (by simp) nofun⟩
  | refused hst h => exact .inr ⟨_, _, _, _, _, _, h, concerns_quiet rfl (by simp) nofun⟩
  | acknowledged hst hobtains hhub h =>
      have hfit := hs.orderly.fits id job _ hjob hst
      cases hfit
      cases hkeeps

-- A turn of which no deed tells leaves the cache and the flag alone.
theorem Turn.steady (ht : Turn id s s') (hquiet : s'.journal = s.journal) :
    s'.hub.cache = s.hub.cache ∧ s'.hub.lastSuccess = s.hub.lastSuccess := by
  have hnone : ∀ {next cycleLock transport cache success deeds},
      Turned id s next cycleLock transport cache success deeds s' → deeds = [] := by
    intro next cycleLock transport cache success deeds h
    have hlog := h.log_eq
    rw [log_of_journal_eq hquiet] at hlog
    exact List.self_eq_append_right.mp hlog
  cases ht with
  | stays heq _ => exact heq ▸ ⟨rfl, rfl⟩
  | queues hjob hr hst hfrom h => exact ⟨h.cache_eq, h.success_eq⟩
  | queuesWrite hjob hst hc h => exact ⟨h.cache_eq, h.success_eq⟩
  | declinesWrite hjob hst hc h => exact ⟨h.cache_eq, h.success_eq⟩
  | rests hjob hw hst hfrom h => exact ⟨h.cache_eq, h.success_eq⟩
  | ends hjob hother hst hfrom h => exact ⟨h.cache_eq, h.success_eq⟩
  | declines hjob hst hl hc h => cases hnone h
  | beginsNothing hjob hst hl hc hp h => cases hnone h
  | begins hst hl hc hp h => cases hnone h
  | asks hst hp hl hc h => cases hnone h
  | withdraws hjob hst hp hl hc hhub h => cases hnone h
  | asksAgain hst hp hc hresult h => cases hnone h
  | settles hst hp hrest hc hobtains hhub h => cases hnone h
  | settlesLast hjob hst hp hc hobtains hhub h => cases hnone h
  | givesUp hjob hst hp hc hhub h => cases hnone h
  | fails hjob hst hp hc hresult hfound hhub hlast h => cases hnone h
  | sends hst hl h => cases hnone h
  | refused hst h => cases hnone h
  | acknowledged hst hobtains hhub h => cases hnone h

-- Steps of the task, and whatever else may happen as long as the entity stays attached and other tasks
-- do no more than line up.
def Move.Spares (s : System) (id : TaskId) (e : Entity) : Move → Prop
  | .step j => j = id ∨ (s.step j).journal = s.journal
  | .detach other => other.index ≠ e.index
  | _ => True

def Undisturbed (s : System) (id : TaskId) (e : Entity) : List Move → Prop
  | [] => True
  | m :: rest => m.Spares s id e ∧ Undisturbed (s.move m) id e rest

theorem Undisturbed.of_append {first rest : List Move} (h : s.Undisturbed id e (first ++ rest)) :
    s.Undisturbed id e first ∧ (s.play first).Undisturbed id e rest := by
  induction first generalizing s with
  | nil => exact ⟨trivial, h⟩
  | cons m first ih => exact ⟨⟨h.1, (ih h.2).1⟩, (ih h.2).2⟩

theorem attached_move (s : System) (m : Move) (hm : ∀ id, m ≠ .step id) (hspares : m.Spares s id e)
    (hseated : s.hub.Seated) (he : e.Attached s.hub) : e.Attached (s.move m).hub := by
  have hindex := hseated _ he e.index rfl
  cases m with
  | step j => exact absurd rfl (hm j)
  | spawn job => exact he
  | stop j =>
      simp only [move]
      split <;> exact he
  | act action => exact (s.hub.kept_act action).entities _ he e.index hindex rfl
  | attach coil => exact (s.hub.kept_attach coil).entities _ he e.index hindex rfl
  | detach other =>
      refine List.mem_filter.mpr ⟨he, decide_eq_true ?_⟩
      intro heq
      injection heq with heq
      exact hspares heq.symm
  | gateway g => exact he
  | nesting depth => exact he
  | wait duration => exact he
  | rouse woken => exact he
  | forget => exact he

-- What has happened to an entity since a cycle was about to begin, as long as it has not returned.
structure Since (s₀ : System) (id : TaskId) (e : Entity) (s : System) (deeds : List Deed) :
    Prop where
  log : s.log = s₀.log ++ deeds
  success : s.hub.lastSuccess = s₀.hub.lastSuccess
  attached : e.Attached s.hub
  listens : ∀ stage cycle, s.stage? id = some stage → stage.cycle? = some cycle →
    e.listener ∈ cycle.listeners
  heard : ∀ hub ls, .calls hub ls ∈ deeds → hub.lastSuccess = s₀.hub.lastSuccess
  cached : s.hub.cache.contains e.coil.address = s₀.hub.cache.contains e.coil.address ∨
    s.hub.cache.contains e.coil.address = true ∧ ∃ hub ls, .calls hub ls ∈ deeds ∧
      e.listener ∈ ls ∧ hub.cache.contains e.coil.address = true

namespace Since

variable {s₀ : System} {deeds : List Deed} (h : Since s₀ id e s deeds)
include h

theorem aside (m : Move) (hm : ∀ id, m ≠ .step id) (hspares : m.Spares s id e)
    (hseated : s.hub.Seated) : Since s₀ id e (s.move m) deeds := by
  have ha := move_aside s m hm
  refine ⟨?_, ha.success.trans h.success, attached_move s m hm hspares hseated h.attached, ?_,
    h.heard, ?_⟩
  · rw [← h.log]
    exact log_of_journal_eq ha.journal
  · intro stage cycle hstage hcycle
    rcases ha.stages id with hs | ⟨-, hs⟩ | ⟨-, hs⟩
    · rw [hs] at hstage
      exact h.listens stage cycle hstage hcycle
    · rw [hs] at hstage
      cases hstage
      cases hcycle
    · rw [hs] at hstage
      cases hstage
      cases hcycle
  · rw [ha.cache]
    exact h.cached

theorem bystander {j : TaskId} (hj : j ≠ id) (hquiet : (s.step j).journal = s.journal)
    (hseated : s.hub.Seated) : Since s₀ id e (s.step j) deeds := by
  have ht := step_turn s j
  obtain ⟨hcache, hsuccess⟩ := ht.steady hquiet
  rcases ht.turned with heq | ⟨next, cycleLock, transport, cache, success, more, hturned⟩
  · rw [heq]
    exact h
  · refine ⟨?_, hsuccess.trans h.success, ?_, ?_, h.heard, ?_⟩
    · rw [← h.log]
      exact log_of_journal_eq hquiet
    · exact hturned.hub.entities _ h.attached e.index (hseated _ h.attached e.index rfl) rfl
    · intro stage cycle hstage
      rw [hturned.others id (Ne.symm hj)] at hstage
      exact h.listens stage cycle hstage
    · rw [hcache]
      exact h.cached

variable {next : Stage} {cycleLock transport : Lock} {cache : Cache} {success : Bool}
  {more : List Deed} (hc : Concerns s e next cache success more)
include hc

theorem cached_after : cache.contains e.coil.address = s₀.hub.cache.contains e.coil.address ∨
    cache.contains e.coil.address = true ∧ ∃ hub ls, .calls hub ls ∈ deeds ++ more ∧
      e.listener ∈ ls ∧ hub.cache.contains e.coil.address = true := by
  rcases hc.cached with hsame | ⟨hcached, hub, ls, hmem, hl, hhub⟩
  · rcases h.cached with hold | ⟨hcached, hub, ls, hmem, hl, hhub⟩
    · exact .inl (hsame.trans hold)
    · exact .inr ⟨hsame.trans hcached, hub, ls, List.mem_append_left _ hmem, hl, hhub⟩
  · exact .inr ⟨hcached, hub, ls, List.mem_append_right _ hmem, hl, hhub⟩

theorem turned (ht : Turned id s next cycleLock transport cache success more s')
    (hseated : s.hub.Seated) (hmore : outcomesIn more = []) :
    Since s₀ id e s' (deeds ++ more) := by
  have hsuccess : success = s.hub.lastSuccess ∧
      ∀ hub ls, .calls hub ls ∈ more → hub.lastSuccess = s.hub.lastSuccess := by
    rcases hc.success with ⟨hsame | ⟨-, hreturned⟩, hsteady⟩ | ⟨-, -, hreturned, -⟩
    · exact ⟨hsame, hsteady⟩
    · exact absurd hmore hreturned
    · exact absurd hmore hreturned
  refine ⟨?_, ?_, ?_, ?_, ?_, ?_⟩
  · rw [ht.log_eq, h.log, List.append_assoc]
  · rw [ht.success_eq, hsuccess.1]
    exact h.success
  · exact ht.hub.entities _ h.attached e.index (hseated _ h.attached e.index rfl) rfl
  · intro stage cycle hstage hcycle
    rw [ht.stage] at hstage
    cases hstage
    exact hc.listens cycle hcycle
  · intro hub ls hmem
    rcases List.mem_append.mp hmem with hmem | hmem
    · exact h.heard hub ls hmem
    · exact (hsuccess.2 hub ls hmem).trans h.success
  · rw [ht.cache_eq]
    exact h.cached_after hc

-- After a success, either the coil has been read for the first time, or the flag goes down.
theorem announced (hflag : s₀.hub.lastSuccess = true)
    (hne : (success && cache.contains e.coil.address) ≠ s₀.hub.available e.coil.address) :
    ∃ hub ls, .calls hub ls ∈ deeds ++ more ∧ e.listener ∈ ls ∧
      hub.available e.coil.address = (success && cache.contains e.coil.address) := by
  have hold : s₀.hub.available e.coil.address =
      (s₀.hub.lastSuccess && s₀.hub.cache.contains e.coil.address) := rfl
  rcases hc.success with ⟨hsame, hsteady⟩ | ⟨rfl, -, -, -, hub, ls, hmem, hl, hfalse⟩
  · have hsuccess : success = true := by
      rcases hsame with hsame | ⟨htrue, -⟩
      · exact hsame.trans (h.success.trans hflag)
      · exact htrue
    rw [hold, hflag, hsuccess, Bool.true_and, Bool.true_and] at hne
    rcases h.cached_after hc with hsame | ⟨hcached, hub, ls, hmem, hl, hhub⟩
    · exact absurd hsame hne
    · have hheard : hub.lastSuccess = true := by
        rcases List.mem_append.mp hmem with hmem | hmem
        · exact (h.heard hub ls hmem).trans hflag
        · exact (hsteady hub ls hmem).trans (h.success.trans hflag)
      refine ⟨hub, ls, hmem, hl, ?_⟩
      rw [hsuccess, hcached]
      simp [Hub.available, hheard, hhub]
  · exact ⟨hub, ls, List.mem_append_right _ hmem, hl, by simp [Hub.available, hfalse]⟩

end Since

-- A task that stands outside of any refresh makes one in the course of these moves, the last of which is
-- the step in which it returns. The entity stays attached, and other tasks do no more than line up.
structure RunsCycle (s : System) (moves : List Move) (id : TaskId) (e : Entity) : Prop where
  job : ∃ job, s.job? id = some job ∧ job.keepsOutcome = true
  outside : ∀ stage, s.stage? id = some stage → stage.cycle? = none
  undisturbed : s.Undisturbed id e moves
  returns : ∃ before, moves = before ++ [.step id] ∧
    outcomesIn (s.play before).log = outcomesIn s.log ∧
    outcomesIn (s.play moves).log ≠ outcomesIn s.log

theorem outcomesIn_append (deeds more : List Deed) :
    outcomesIn (deeds ++ more) = outcomesIn deeds ++ outcomesIn more := List.filterMap_append

theorem outcomesIn_play_append {first rest : List Move}
    (h : outcomesIn (s.play (first ++ rest)).log = outcomesIn s.log) :
    outcomesIn (s.play first).log = outcomesIn s.log := by
  obtain ⟨deeds, hdeeds⟩ := log_play s first
  obtain ⟨more, hmore⟩ := log_play (s.play first) rest
  rw [play_append, hmore, hdeeds, outcomesIn_append, outcomesIn_append, List.append_assoc,
    List.append_right_eq_self, List.append_eq_nil_iff] at h
  rw [hdeeds, outcomesIn_append, h.1, List.append_nil]

-- The induction is on the moves, which lead from one state before the return to the next.
theorem Since.play {s₀ : System} {deeds : List Deed} {job : Job} (h : Since s₀ id e s deeds)
    (hs : s.Reachable) (hjob : s.job? id = some job) (hkeeps : job.keepsOutcome = true)
    (moves : List Move) (hundisturbed : s.Undisturbed id e moves)
    (hreturned : outcomesIn (s.play moves).log = outcomesIn s.log) :
    ∃ more, Since s₀ id e (s.play moves) (deeds ++ more) := by
  induction moves generalizing s deeds with
  | nil => exact ⟨[], by simpa using h⟩
  | cons m rest ih =>
      obtain ⟨hspares, hrest⟩ := hundisturbed
      have hjob' := job?_move hjob m
      have hfirst : outcomesIn (s.play [m]).log = outcomesIn s.log :=
        outcomesIn_play_append hreturned
      have hnext : ∃ more, Since s₀ id e (s.move m) (deeds ++ more) := by
        by_cases hm : ∃ j, m = .step j
        · obtain ⟨j, rfl⟩ := hm
          by_cases hj : j = id
          · subst hj
            rcases (step_turn s j).concerns hs hjob hkeeps h.attached h.listens with
              heq | ⟨next, cycleLock, transport, cache, success, more, ht, hc⟩
            · have heq' : s.move (.step j) = s := heq
              exact ⟨[], by rw [heq', List.append_nil]; exact h⟩
            · refine ⟨more, h.turned hc ht hs.seated ?_⟩
              have hlog : outcomesIn (s.step j).log = outcomesIn s.log := hfirst
              rw [ht.log_eq, outcomesIn_append] at hlog
              exact List.append_right_eq_self.mp hlog
          · have hquiet := hspares.resolve_left hj
            exact ⟨[], by rw [List.append_nil]; exact h.bystander hj hquiet hs.seated⟩
        · refine ⟨[], ?_⟩
          rw [List.append_nil]
          exact h.aside m (fun j hj => hm ⟨j, hj⟩) hspares hs.seated
      obtain ⟨more, hnext⟩ := hnext
      obtain ⟨others, hothers⟩ := ih hnext (hs.play [m]) hjob' hrest (hreturned.trans hfirst.symm)
      exact ⟨more ++ others, by rw [← List.append_assoc]; exact hothers⟩

-- An entity is called in the course of these moves, at a moment at which its availability has this
-- answer.
def Hears (e : Entity) (s : System) (moves : List Move) (answer : Bool) : Prop :=
  ∃ before m after found, moves = before ++ m :: after ∧ (s.play before).Finds e.listener found m ∧
    found.available e.coil.address = answer

theorem available_kept {hub found : Hub} (h : hub.Kept found) (a : Address) :
    found.available a = hub.available a := by
  unfold Hub.available
  rw [h.success, h.cache]

section

variable {moves : List Move} {job : Job} (hs : s.Reachable) (he : e.Attached s.hub)
  (hcycle : RunsCycle s moves id e)
include hs he hcycle

theorem RunsCycle.since {first rest : List Move} (hmoves : moves = first ++ rest)
    (hrest : rest ≠ []) :
    ∃ job deeds, (s.play first).job? id = some job ∧ job.keepsOutcome = true ∧
      Since s id e (s.play first) deeds := by
  obtain ⟨job, hjob, hkeeps⟩ := hcycle.job
  obtain ⟨before, hbefore, hreturned, -⟩ := hcycle.returns
  obtain ⟨middle, rfl⟩ : ∃ middle, before = first ++ middle := by
    rw [hmoves, ← List.dropLast_append_getLast hrest, ← List.append_assoc] at hbefore
    exact ⟨rest.dropLast, (List.append_inj' hbefore rfl).1.symm⟩
  have hstart : Since s id e s [] := by
    refine ⟨by simp, rfl, he, ?_, by simp, .inl rfl⟩
    intro stage cycle hst hstage
    rw [hcycle.outside stage hst] at hstage
    cases hstage
  have hundisturbed := (Undisturbed.of_append (hmoves ▸ hcycle.undisturbed)).1
  obtain ⟨deeds, hsince⟩ :=
    hstart.play hs hjob hkeeps first hundisturbed (outcomesIn_play_append hreturned)
  exact ⟨job, deeds, job?_play hjob first, hkeeps, hsince⟩

-- After a failure nobody finds the flag up before the cycle has returned.
theorem RunsCycle.not_hears (hflag : s.hub.lastSuccess = false) : ¬Hears e s moves true := by
  rintro ⟨before, m, after, found, rfl, hfinds, havailable⟩
  obtain ⟨job, deeds, hjob, hkeeps, hsince⟩ := hcycle.since hs he rfl (by simp)
  have hdown : (s.play before).hub.lastSuccess = false := hsince.success.trans hflag
  have hspares := (Undisturbed.of_append hcycle.undisturbed).2.1
  have hfound : found.lastSuccess = false := by
    cases hfinds with
    | aside h => exact h.kept.success.trans hdown
    | @turn j own first later hub next ls hown hdeeds hbefore hcalls hafter h =>
        refine h.kept.success.trans ?_
        have hmem : .calls hub ls ∈ deedsSince (s.play before) ((s.play before).step j) := by
          simp [hdeeds]
        by_cases hj : j = id
        · subst hj
          rcases (step_turn (s.play before) j).concerns (hs.play before) hjob hkeeps hsince.attached
            hsince.listens with heq | ⟨next, cycleLock, transport, cache, success, more, ht, hc⟩
          · rw [heq, deedsSince_self] at hmem
            cases hmem
          · rw [deedsSince_of_log_eq ht.log_eq] at hmem
            rcases hc.success with ⟨-, hsteady⟩ | ⟨-, hup, -⟩
            · exact (hsteady hub ls hmem).trans hdown
            · rw [hdown] at hup
              cases hup
        · have hquiet := hspares.resolve_left hj
          rw [deedsSince_of_journal_eq hquiet] at hmem
          cases hmem
  rw [Hub.available, hfound] at havailable
  cases havailable

end

-- Whenever a cycle changes whether an entity is available, the entity is called meanwhile and finds the
-- new answer just if the cycle before it was a success. A recovery is announced to nobody.
theorem availability_announced {moves : List Move} (hs : s.Reachable) (he : e.Attached s.hub)
    (hcycle : RunsCycle s moves id e)
    (hne : (s.play moves).hub.available e.coil.address ≠ s.hub.available e.coil.address) :
    s.hub.lastSuccess = true ↔ Hears e s moves ((s.play moves).hub.available e.coil.address) := by
  constructor
  · intro hflag
    obtain ⟨before, hmoves, hreturned, hreturns⟩ := hcycle.returns
    obtain ⟨job, deeds, hjob, hkeeps, hsince⟩ := hcycle.since hs he hmoves (by simp)
    have hend : s.play moves = (s.play before).step id := by
      rw [hmoves, play_append]
      rfl
    rcases (step_turn (s.play before) id).concerns (hs.play before) hjob hkeeps hsince.attached
      hsince.listens with heq | ⟨next, cycleLock, transport, cache, success, more, ht, hc⟩
    · rw [hend, heq, hreturned] at hreturns
      exact absurd rfl hreturns
    · have hdeeds : deedsSince s (s.play moves) = deeds ++ more := by
        apply deedsSince_of_log_eq
        rw [hend, ht.log_eq, hsince.log, List.append_assoc]
      have havailable : (s.play moves).hub.available e.coil.address =
          (success && cache.contains e.coil.address) := by
        unfold Hub.available
        rw [hend, ht.success_eq, ht.cache_eq]
      rw [havailable] at hne ⊢
      obtain ⟨hub, ls, hmem, hl, hnew⟩ := hsince.announced hc hflag hne
      rw [← hdeeds] at hmem
      obtain ⟨first, j, after, hsplit, hturn⟩ := exists_turn_of_deed hmem
      obtain ⟨found, hfinds, hkept⟩ := finds_of_calls (hs.play first).orderly hturn hl
      exact ⟨first, .step j, after, found, hsplit, hfinds, (available_kept hkept _).trans hnew⟩
  · intro hhears
    by_contra hflag
    rw [Bool.not_eq_true] at hflag
    have hold : s.hub.available e.coil.address = false := by
      rw [Hub.available, hflag, Bool.false_and]
    rw [hold, ne_eq, Bool.not_eq_false] at hne
    rw [hne] at hhears
    exact hcycle.not_hears hs he hflag hhears

def thermometer : Entity where
  coil := { address := 1, name := "bt1", title := "BT1" }
  uniqueId := "nibe-heatpump-1"
  index := 0

def beforeFirst : System :=
  (fresh {} .f1155 { source := .echo }).play [.attach thermometer.coil, .spawn .cycle]

-- Another cycle lines up while the first one is under way.
def queuedBehind : List Move := [.step 0, .step 0, .spawn .cycle, .step 1, .step 0, .step 0]

theorem availability_announced_first :
    Hears thermometer beforeFirst queuedBehind true ∧
      (beforeFirst.play queuedBehind).hub.history =
        [.called (.entity 0) [some (.integer 1)], .read 1] ∧
      (beforeFirst.play queuedBehind).hub.displays = [{ value := some (.integer 1), version := 1 }] := by
  have hcycle : RunsCycle beforeFirst queuedBehind 0 thermometer := by
    refine ⟨⟨.cycle, rfl, rfl⟩, ?_, ?_, ⟨queuedBehind.dropLast, rfl, rfl, ?_⟩⟩
    · intro stage hstage
      obtain rfl : Stage.fresh = stage := Option.some.inj hstage
      rfl
    · exact ⟨.inl rfl, .inl rfl, trivial, .inr rfl, .inl rfl, .inl rfl, trivial⟩
    · exact fun h => absurd (congrArg List.length h) (by decide)
  have hne : (beforeFirst.play queuedBehind).hub.available 1 ≠ beforeFirst.hub.available 1 := by decide
  have he : thermometer.Attached beforeFirst.hub := List.mem_singleton.mpr rfl
  exact ⟨(availability_announced ⟨_, _, _, _, rfl⟩ he hcycle hne).mp rfl, rfl, rfl⟩

-- A pump on which the next read of the coil fails.
def faulty (fault : FetchError) : Gateway where
  source := .pump { model := .f1155, readFaults := .insert 1 [fault] .empty }

-- A cycle has succeeded, the next one has failed, and another one is about to begin. It finds that
-- the coil is gone, which is no failure.
def beforeRecovery : System :=
  beforeFirst.play (.replicate 4 (.step 0) ++ [.spawn .cycle, .gateway (faulty (.fatal ""))] ++
    .replicate 4 (.step 1) ++ [.spawn .cycle, .gateway (faulty (.notFound 1))])

-- The cycle succeeds after a failure, and nobody is called.
theorem recovery_unannounced :
    ¬∀ (s : System) (moves : List Move) (id : TaskId) (e : Entity), s.Reachable →
      e.Attached s.hub → RunsCycle s moves id e →
      (s.play moves).hub.available e.coil.address ≠ s.hub.available e.coil.address →
      Hears e s moves ((s.play moves).hub.available e.coil.address) := by
  intro hall
  have hreachable : beforeRecovery.Reachable :=
    ⟨{}, .f1155, { source := .echo }, _, (play_append _ _ _).symm⟩
  have he : thermometer.Attached beforeRecovery.hub := List.mem_singleton.mpr rfl
  have hcycle : RunsCycle beforeRecovery (.replicate 4 (.step 2)) 2 thermometer := by
    refine ⟨⟨.cycle, rfl, rfl⟩, ?_, ?_, ⟨.replicate 3 (.step 2), rfl, rfl, ?_⟩⟩
    · intro stage hstage
      obtain rfl : Stage.fresh = stage := Option.some.inj hstage
      rfl
    · exact ⟨.inl rfl, .inl rfl, .inl rfl, .inl rfl, trivial⟩
    · exact fun h => absurd (congrArg List.length h) (by decide)
  have hnew : (beforeRecovery.play (.replicate 4 (.step 2))).hub.available 1 = true := by decide
  have hold : beforeRecovery.hub.available 1 = false := by decide
  have hhears : Hears thermometer beforeRecovery (.replicate 4 (.step 2)) true := by
    rw [← hnew]
    refine hall _ _ _ _ hreachable he hcycle ?_
    show (beforeRecovery.play _).hub.available 1 ≠ beforeRecovery.hub.available 1
    rw [hnew, hold]
    exact Bool.noConfusion
  exact hcycle.not_hears hreachable he rfl hhears

end System

end CoilHub
