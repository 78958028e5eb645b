import CoilHub.Proofs.Interleaving.Turned

namespace CoilHub

namespace Job

-- Whether a job refreshes, once or again and again.
def refreshes : Job → Bool
  | .refresh | .cycle | .updates _ => true
  | _ => false

def waits : Job → Bool
  | .updates _ | .drift _ => true
  | _ => false

end Job

-- Where a task with that job can stand.
def Stage.Fits (job : Job) : Stage → Prop
  | .fresh | .finished _ => True
  | .awaitingCycle => job.refreshes = true
  | .awaitingTransport cycle => job.refreshes = true ∧ cycle.pending ≠ []
  | .reading cycle _ _ _ => job.refreshes = true ∧ cycle.pending ≠ []
  | .awaitingWrite a value => job = .write a value
  | .writing a value _ _ => job = .write a value
  | .idle => job.waits = true

theorem Stage.Fits.of_drift {period : Nat} {stage : Stage} (h : stage.Fits (.drift period)) :
    stage = .fresh ∨ stage = .idle ∨ ∃ outcome, stage = .finished outcome := by
  cases stage with
  | fresh => exact .inl rfl
  | idle => exact .inr (.inl rfl)
  | finished outcome => exact .inr (.inr ⟨outcome, rfl⟩)
  | awaitingCycle => cases h
  | awaitingTransport cycle => cases h.1
  | reading cycle revision attempt due => cases h.1
  | awaitingWrite a value => cases h
  | writing a value revision hadData => cases h

abbrev RefreshResult := Except HubError (AddressMap CachedValue)

namespace System

def stageAfter (job : Job) (result : RefreshResult) : Stage :=
  match job with
  | .cycle => .finished (result.map fun values => .counted values.size)
  | .updates _ =>
    match result with
    | .error .cancelled => .finished (.ok .stopped)
    | _ => .idle
  | _ => .finished (result.map .refreshed)

def successAfter (job : Job) (result : RefreshResult) (before : Bool) : Bool :=
  match job, result with
  | .cycle, .ok _ | .updates _, .ok _ => true
  | .cycle, .error .cancelled | .updates _, .error .cancelled => before
  | .cycle, .error _ | .updates _, .error _ => false
  | _, _ => before

-- Who hears of the result of a refresh.
def toldAfter (job : Job) (result : RefreshResult) (hub : Hub) : List Deed :=
  match job, result with
  | .cycle, .error .cancelled | .updates _, .error .cancelled => []
  | .cycle, .error _ | .updates _, .error _ =>
    if hub.lastSuccess then [.calls { hub with lastSuccess := false } hub.registry.listeners]
    else []
  | _, _ => []

@[simp] theorem successAfter_cancelled (job : Job) (before : Bool) :
    successAfter job (.error .cancelled) before = before := by
  cases job <;> rfl

@[simp] theorem toldAfter_cancelled (job : Job) (hub : Hub) :
    toldAfter job (.error .cancelled) hub = [] := by
  cases job <;> rfl

@[simp] theorem toldAfter_ok (job : Job) (values : AddressMap CachedValue) (hub : Hub) :
    toldAfter job (.ok values) hub = [] := by
  cases job <;> rfl

theorem toldAfter_calls (job : Job) (result : RefreshResult) (hub : Hub) :
    toldAfter job result hub = [] ∨ ∃ hub' ls, toldAfter job result hub = [.calls hub' ls] := by
  unfold toldAfter
  split
  any_goals exact .inl rfl
  all_goals
    split
    · exact .inr ⟨_, _, rfl⟩
    · exact .inl rfl

namespace Turned

variable {id : TaskId} {s m : System} {stage : Stage} {cycleLock transport : Lock} {cache : Cache}
  {success : Bool} {deeds : List Deed}
  (h : Turned id s stage cycleLock transport cache success deeds m)
include h

theorem recordFailure :
    Turned id s stage cycleLock transport cache false
      (deeds ++ if m.hub.lastSuccess then
        [.calls { m.hub with lastSuccess := false } m.hub.registry.listeners] else [])
      (m.recordFailure id) := by
  unfold System.recordFailure
  split
  · exact (h.setSuccess false).callEach _
  case isFalse hs =>
    have hf : success = false := by rw [← h.success_eq]; simpa using hs
    subst hf
    simpa using h

theorem keepOutcome {job : Job} (hjob : job = .cycle ∨ ∃ period, job = .updates period)
    (result : RefreshResult) :
    Turned id s stage cycleLock transport cache (successAfter job result success)
      (deeds ++ toldAfter job result m.hub) (m.keepOutcome id result) := by
  have hok : Turned id s stage cycleLock transport cache true (deeds ++ [])
      (m.mapHub Hub.recordSuccess) := by
    rw [List.append_nil]
    exact h.setSuccess true
  have hsame : Turned id s stage cycleLock transport cache success (deeds ++ []) m := by
    rw [List.append_nil]
    exact h
  have hfailed := h.recordFailure
  rcases hjob with rfl | ⟨period, rfl⟩
  all_goals
    match result with
    | .ok _ => exact hok
    | .error .cancelled => exact hsame
    | .error (.refreshFailed _ _) => exact hfailed
    | .error (.writeFailed _ _) => exact hfailed
    | .error (.startFailed _) => exact hfailed

theorem conclude {job : Job} (hjob : s.job? id = some job) (result : RefreshResult) :
    Turned id s (stageAfter job result) cycleLock transport cache
      (successAfter job result success)
      (deeds ++ .returns result :: toldAfter job result m.hub) (m.conclude id result) := by
  have hn := h.note (.returns result)
  have hj : (m.note id (.returns result)).job? id = some job := (hn.jobs id).trans hjob
  have hk := fun hcycle : job = .cycle ∨ ∃ period, job = .updates period =>
    hn.keepOutcome hcycle result
  simp only [List.append_assoc, List.singleton_append] at hk
  have hplain := hn.setStage (.finished (result.map .refreshed))
  unfold System.conclude
  dsimp only
  rw [hj]
  cases job with
  | cycle => exact (hk (.inl rfl)).setStage _
  | updates period =>
      have hu := hk (.inr ⟨period, rfl⟩)
      match result with
      | .ok _ => exact hu.rest
      | .error .cancelled => exact hu.setStage _
      | .error (.refreshFailed _ _) => exact hu.rest
      | .error (.writeFailed _ _) => exact hu.rest
      | .error (.startFailed _) => exact hu.rest
  | refresh => exact hplain
  | write a value => exact hplain
  | start => exact hplain
  | shutdown => exact hplain
  | drift period => exact hplain

theorem abort {job : Job} (hjob : s.job? id = some job) (cycle : HubCycle) (error : HubError) :
    ∃ hub, Hub.Kept { s.hub with cache, lastSuccess := success } hub ∧
      Turned id s (stageAfter job (.error error)) cycleLock.release transport.release cache
        (successAfter job (.error error) success)
        (deeds ++ .abandons :: .calls m.hub cycle.waiting :: .returns (.error error) ::
          toldAfter job (.error error) hub)
        (m.abort id cycle error) := by
  have hr := ((h.note .abandons).callEach cycle.waiting).releaseTransport.releaseCycle
  have hc := hr.conclude hjob (.error error)
  simp only [List.append_assoc, List.cons_append, List.nil_append] at hc
  exact ⟨_, hr.hub, hc⟩

theorem proceed_nil {job : Job} (hjob : s.job? id = some job) {cycle : HubCycle}
    (hp : cycle.pending = []) :
    Turned id s (stageAfter job (.ok cycle.result)) cycleLock.release transport cache
      (successAfter job (.ok cycle.result) success) (deeds ++ [.returns (.ok cycle.result)])
      (m.proceed id cycle) := by
  have hc := h.releaseCycle.conclude hjob (.ok cycle.result)
  rw [toldAfter_ok] at hc
  unfold System.proceed
  rw [hp]
  exact hc

theorem proceed_cons {cycle : HubCycle} (hp : cycle.pending ≠ []) :
    Turned id s (.awaitingTransport cycle) cycleLock (transport.request id) cache success deeds
      (m.proceed id cycle) := by
  unfold System.proceed
  cases hc : cycle.pending with
  | nil => exact absurd hc hp
  | cons entry rest => exact h.requestTransport _

end Turned

-- What the answer to a read comes to: what the cache holds afterwards, what the journal says about
-- it, and the value that the cycle counts as refreshed.
inductive Obtains (cache : Cache) (revision : UInt64) (a : Address) :
    FetchResult CoilValue → Cache → List Deed → Option CachedValue → Prop
  | missing (b : Address) : Obtains cache revision a (.error (.notFound b)) cache [] none
  | stored {value : CoilValue} {next : Cache} (h : cache.store? revision a value = some next) :
    Obtains cache revision a (.ok value) next [.offers revision a value true]
      (some { address := a, value })
  | refused {value : CoilValue} (h : cache.store? revision a value = none) :
    Obtains cache revision a (.ok value) cache [.offers revision a value false] none

-- The rules. Each one says where the task stood, and with which job.
inductive Turn (id : TaskId) (s s' : System) : Prop
  | stays (hs : s' = s)
    (hblocked : s.enabled id = false ∨ ∃ job stage, s.job? id = some job ∧
      s.stage? id = some stage ∧ ¬stage.Fits job)
  -- a job begins, or a task that works at regular times goes on
  | queues {job : Job} {stage : Stage} (hjob : s.job? id = some job) (hr : job.refreshes = true)
    (hst : s.stage? id = some stage)
    (hfrom : stage = .fresh ∨ stage = .idle ∧ s.hub.cancelled = false)
    (h : Turned id s .awaitingCycle (s.cycleLock.request id) s.transport s.hub.cache
      s.hub.lastSuccess [] s')
  | queuesWrite {a : Address} {value : CoilValue} (hjob : s.job? id = some (.write a value))
    (hst : s.stage? id = some .fresh) (hc : s.hub.cancelled = false)
    (h : Turned id s (.awaitingWrite a value) s.cycleLock (s.transport.request id) s.hub.cache
      s.hub.lastSuccess [] s')
  | declinesWrite {a : Address} {value : CoilValue} (hjob : s.job? id = some (.write a value))
    (hst : s.stage? id = some .fresh) (hc : s.hub.cancelled = true)
    (h : Turned id s (.finished (.error .cancelled)) s.cycleLock s.transport s.hub.cache
      s.hub.lastSuccess [] s')
  | rests {job : Job} {stage : Stage} (hjob : s.job? id = some job) (hw : job.waits = true)
    (hst : s.stage? id = some stage)
    (hfrom : stage = .fresh ∨ stage = .idle ∧ ∃ period, job = .drift period)
    (h : Turned id s .idle s.cycleLock s.transport s.hub.cache s.hub.lastSuccess [] s')
  | ends {job : Job} {stage : Stage} {outcome : Outcome} (hjob : s.job? id = some job)
    (hother : job = .start ∨ job = .shutdown ∨ job.waits = true)
    (hst : s.stage? id = some stage) (hfrom : stage = .fresh ∨ stage = .idle)
    (h : Turned id s (.finished outcome) s.cycleLock s.transport s.hub.cache s.hub.lastSuccess []
      s')
  -- the cycle lock has been obtained
  | declines {job : Job} (hjob : s.job? id = some job) (hst : s.stage? id = some .awaitingCycle)
    (hl : s.cycleLock.holder = some id) (hc : s.hub.cancelled = true)
    (h : Turned id s (stageAfter job (.error .cancelled)) s.cycleLock.release s.transport
      s.hub.cache s.hub.lastSuccess [.returns (.error .cancelled)] s')
  | beginsNothing {job : Job} (hjob : s.job? id = some job)
    (hst : s.stage? id = some .awaitingCycle) (hl : s.cycleLock.holder = some id)
    (hc : s.hub.cancelled = false)
    (hp : (Cycle.plan s.hub.registry.listeners).pending = [])
    (h : Turned id s (stageAfter job (.ok .empty)) s.cycleLock.release s.transport s.hub.cache
      (successAfter job (.ok .empty) s.hub.lastSuccess)
      [.begins s.hub.registry.listeners, .returns (.ok .empty)] s')
  | begins (hst : s.stage? id = some .awaitingCycle) (hl : s.cycleLock.holder = some id)
    (hc : s.hub.cancelled = false)
    (hp : (Cycle.plan s.hub.registry.listeners).pending ≠ [])
    (h : Turned id s (.awaitingTransport (Cycle.plan s.hub.registry.listeners)) s.cycleLock
      (s.transport.request id) s.hub.cache s.hub.lastSuccess
      [.begins s.hub.registry.listeners] s')
  -- the transport has been obtained for an address
  | asks {cycle : HubCycle} {a : Address} {watchers : List Nat} {rest : List (Address × List Nat)}
    {due : Nat} (hst : s.stage? id = some (.awaitingTransport cycle))
    (hp : cycle.pending = (a, watchers) :: rest) (hl : s.transport.holder = some id)
    (hc : s.hub.cancelled = false)
    (h : Turned id s (.reading cycle s.hub.cache.nextRevision.1 1 due) s.cycleLock s.transport
      s.hub.cache.nextRevision.2 s.hub.lastSuccess
      [.reserves s.hub.cache.nextRevision.1, .asks a] s')
  | withdraws {job : Job} {cycle : HubCycle} {hub : Hub} (hjob : s.job? id = some job)
    (hst : s.stage? id = some (.awaitingTransport cycle)) (hp : cycle.pending ≠ [])
    (hl : s.transport.holder = some id) (hc : s.hub.cancelled = true)
    (hhub : Hub.Kept { s.hub with cache := s.hub.cache.nextRevision.2 } hub)
    (h : Turned id s (stageAfter job (.error .cancelled)) s.cycleLock.release s.transport.release
      s.hub.cache.nextRevision.2 s.hub.lastSuccess
      [.reserves s.hub.cache.nextRevision.1, .abandons, .calls hub cycle.waiting,
        .returns (.error .cancelled)] s')
  -- a read attempt has been answered, or everything has been cancelled
  | asksAgain {cycle : HubCycle} {a : Address} {watchers : List Nat}
    {rest : List (Address × List Nat)} {revision : UInt64} {attempt due due' : Nat}
    {result : FetchResult CoilValue}
    (hst : s.stage? id = some (.reading cycle revision attempt due))
    (hp : cycle.pending = (a, watchers) :: rest) (hc : s.hub.cancelled = false)
    (hresult : Retry.conclude? attempt (Retry.limit s.hub.settings.readRetries - attempt) result =
      none)
    (h : Turned id s (.reading cycle revision (attempt + 1) due') s.cycleLock s.transport
      s.hub.cache s.hub.lastSuccess [.hears a result, .asks a] s')
  | settles {cycle : HubCycle} {a : Address} {watchers : List Nat}
    {rest : List (Address × List Nat)} {revision : UInt64} {attempt due : Nat}
    {result : FetchResult CoilValue} {cache : Cache} {offers : List Deed}
    {stored : Option CachedValue} {hub : Hub}
    (hst : s.stage? id = some (.reading cycle revision attempt due))
    (hp : cycle.pending = (a, watchers) :: rest) (hrest : rest ≠ [])
    (hc : s.hub.cancelled = false)
    (hobtains : Obtains s.hub.cache revision a result cache offers stored)
    (hhub : Hub.Kept { s.hub with cache } hub)
    (h : Turned id s (.awaitingTransport (cycle.settle stored).1) s.cycleLock
      (s.transport.release.request id) cache s.hub.lastSuccess
      (.hears a result :: offers ++ [.settles a, .calls hub (cycle.settle stored).2]) s')
  | settlesLast {job : Job} {cycle : HubCycle} {a : Address} {watchers : List Nat}
    {revision : UInt64} {attempt due : Nat} {result : FetchResult CoilValue} {cache : Cache}
    {offers : List Deed} {stored : Option CachedValue} {hub : Hub} (hjob : s.job? id = some job)
    (hst : s.stage? id = some (.reading cycle revision attempt due))
    (hp : cycle.pending = [(a, watchers)]) (hc : s.hub.cancelled = false)
    (hobtains : Obtains s.hub.cache revision a result cache offers stored)
    (hhub : Hub.Kept { s.hub with cache } hub)
    (h : Turned id s (stageAfter job (.ok (cycle.settle stored).1.result)) s.cycleLock.release
      s.transport.release cache
      (successAfter job (.ok (cycle.settle stored).1.result) s.hub.lastSuccess)
      (.hears a result :: offers ++ [.settles a, .calls hub (cycle.settle stored).2,
        .returns (.ok (cycle.settle stored).1.result)]) s')
  | givesUp {job : Job} {cycle : HubCycle} {revision : UInt64} {attempt due : Nat} {hub : Hub}
    (hjob : s.job? id = some job)
    (hst : s.stage? id = some (.reading cycle revision attempt due)) (hp : cycle.pending ≠ [])
    (hc : s.hub.cancelled = true) (hhub : s.hub.Kept hub)
    (h : Turned id s (stageAfter job (.error .cancelled)) s.cycleLock.release s.transport.release
      s.hub.cache s.hub.lastSuccess
      [.abandons, .calls hub cycle.waiting, .returns (.error .cancelled)] s')
  | fails {job : Job} {cycle : HubCycle} {a : Address} {watchers : List Nat}
    {rest : List (Address × List Nat)} {revision : UInt64} {attempt due : Nat} {e : FetchError}
    {hub last : Hub} (hjob : s.job? id = some job)
    (hst : s.stage? id = some (.reading cycle revision attempt due))
    (hp : cycle.pending = (a, watchers) :: rest) (hc : s.hub.cancelled = false)
    (hresult : ∃ reason, Retry.conclude? attempt
      (Retry.limit s.hub.settings.readRetries - attempt) (.error e) =
        some (.error reason : Except RetryError CoilValue))
    (hfound : ∀ b, e ≠ .notFound b) (hhub : s.hub.Kept hub) (hlast : s.hub.Kept last)
    (h : Turned id s (stageAfter job (.error (.refreshFailed a e))) s.cycleLock.release
      s.transport.release s.hub.cache
      (successAfter job (.error (.refreshFailed a e)) s.hub.lastSuccess)
      (.hears a (.error e) :: .abandons :: .calls hub cycle.waiting ::
        .returns (.error (.refreshFailed a e)) ::
        toldAfter job (.error (.refreshFailed a e)) last) s')
  -- writes
  | sends {a : Address} {value : CoilValue} (hst : s.stage? id = some (.awaitingWrite a value))
    (hl : s.transport.holder = some id)
    (h : Turned id s (.writing a value s.hub.cache.nextRevision.1 (!s.hub.cache.isEmpty))
      s.cycleLock s.transport s.hub.cache.nextRevision.2 s.hub.lastSuccess
      [.reserves s.hub.cache.nextRevision.1, .sends a value] s')
  | refused {a : Address} {value : CoilValue} {revision : UInt64} {hadData : Bool}
    {e : FetchError} (hst : s.stage? id = some (.writing a value revision hadData))
    (h : Turned id s (.finished (.error (.writeFailed a e))) s.cycleLock s.transport.release
      s.hub.cache s.hub.lastSuccess [.receives a (.error e)] s')
  | acknowledged {a : Address} {value ack : CoilValue} {revision : UInt64} {hadData : Bool}
    {cache : Cache} {offers : List Deed} {stored : Option CachedValue} {hub : Hub}
    (hst : s.stage? id = some (.writing a value revision hadData))
    (hobtains : Obtains s.hub.cache revision a (.ok ack) cache offers stored)
    (hhub : Hub.Kept { s.hub with cache } hub)
    (h : Turned id s (.finished (.ok (.acknowledged ack))) s.cycleLock s.transport.release
      cache s.hub.lastSuccess (.receives a (.ok ack) :: offers ++
        if hadData then [.calls hub (hub.registry.watching a)] else []) s')

-- A turn leaves everything as it is, or it changes what its task may change.
theorem Turn.turned {id : TaskId} {s s' : System} (ht : Turn id s s') :
    s' = s ∨ ∃ stage cycleLock transport cache success deeds,
      Turned id s stage cycleLock transport cache success deeds s' := by
  cases ht with
  | stays hs _ => exact .inl hs
  | _ => exact .inr ⟨_, _, _, _, _, _, ‹_›⟩

theorem begin_turn {s : System} {id : TaskId} {job : Job} (hjob : s.job? id = some job)
    (hst : s.stage? id = some .fresh) : Turn id s (s.begin id job) := by
  have h := Turned.start hst
  cases job with
  | refresh => exact .queues hjob rfl hst (.inl rfl) h.requestCycle
  | cycle => exact .queues hjob rfl hst (.inl rfl) h.requestCycle
  | write a value =>
      unfold begin
      dsimp only
      split
      case isTrue hc => exact .declinesWrite hjob hst hc (h.setStage _)
      case isFalse hc =>
        exact .queuesWrite hjob hst (Bool.eq_false_iff.mpr hc) (h.requestTransport _)
  | start =>
      have hg := h.mapHub (f := fun hub => hub.start.2) (.of_eq rfl rfl rfl rfl rfl rfl rfl)
      exact .ends hjob (.inl rfl) hst (.inl rfl) (hg.setStage _)
  | shutdown =>
      have hs := h.mapHub (f := Hub.shutdown)
        ⟨rfl, rfl, rfl, fun _ => rfl, Nat.le_refl _, fun _ hl _ _ _ => hl, fun h => h,
          fun h => h, rfl⟩
      exact .ends hjob (.inr (.inl rfl)) hst (.inl rfl) (hs.setStage _)
  | updates period =>
      unfold begin
      dsimp only
      split
      · exact .ends hjob (.inr (.inr rfl)) hst (.inl rfl) (h.setStage _)
      · exact .rests hjob rfl hst (.inl rfl) (h.setTimers _ _).rest
  | drift period =>
      unfold begin
      dsimp only
      split
      · exact .ends hjob (.inr (.inr rfl)) hst (.inl rfl) (h.setStage _)
      · exact .rests hjob rfl hst (.inl rfl) ((h.setTimers _ _).setStage _)

theorem update_turn {s : System} {id : TaskId} {period : Nat} (nextTick : Nat)
    (hjob : s.job? id = some (.updates period)) (hst : s.stage? id = some .idle) :
    Turn id s (s.update id period nextTick) := by
  have h := Turned.start hst
  unfold update
  split
  · exact .ends hjob (.inr (.inr rfl)) hst (.inr rfl) (h.leaveDoorbell.setStage _)
  case isFalse hc =>
    have hfrom : Stage.idle = .fresh ∨ Stage.idle = .idle ∧ s.hub.cancelled = false :=
      .inr ⟨rfl, Bool.eq_false_iff.mpr hc⟩
    split
    · exact .queues hjob rfl hst hfrom (h.leaveDoorbell.setTimers _ _).requestCycle
    · exact .queues hjob rfl hst hfrom h.answerBell.requestCycle

theorem beginCycle_turn {s : System} {id : TaskId} {job : Job} (hjob : s.job? id = some job)
    (hst : s.stage? id = some .awaitingCycle) (hl : s.cycleLock.holder = some id) :
    Turn id s (s.beginCycle id) := by
  have h := Turned.start hst
  unfold beginCycle
  split
  case isTrue hc =>
    have hd := h.releaseCycle.conclude hjob (.error .cancelled)
    rw [successAfter_cancelled, toldAfter_cancelled] at hd
    exact .declines hjob hst hl hc hd
  case isFalse hc =>
    have hc := Bool.eq_false_iff.mpr hc
    have hb := h.note (.begins s.hub.registry.listeners)
    by_cases hp : (Cycle.plan s.hub.registry.listeners).pending = []
    · exact .beginsNothing hjob hst hl hc hp (hb.proceed_nil hjob hp)
    · exact .begins hst hl hc hp (hb.proceed_cons hp)

theorem beginRead_turn {s : System} {id : TaskId} {job : Job} {cycle : HubCycle} {a : Address}
    {watchers : List Nat} {rest : List (Address × List Nat)} (hjob : s.job? id = some job)
    (hst : s.stage? id = some (.awaitingTransport cycle))
    (hp : cycle.pending = (a, watchers) :: rest) (hl : s.transport.holder = some id) :
    Turn id s (s.beginRead id cycle a) := by
  have h := (Turned.start hst).reserve
  have hcancelled : (s.reserve id).2.hub.cancelled = s.hub.cancelled := rfl
  unfold beginRead
  dsimp only
  unfold beginAttempt
  rw [hcancelled]
  split
  case isTrue hc =>
    obtain ⟨last, -, ha⟩ := h.abort hjob cycle .cancelled
    rw [successAfter_cancelled, toldAfter_cancelled] at ha
    exact .withdraws hjob hst (by simp [hp]) hl hc h.hub ha
  case isFalse hc =>
    have hr := (h.mapHub (f := (·.beginRead a)) (.of_eq rfl rfl rfl rfl rfl rfl rfl)).note (.asks a)
    exact .asks hst hp hl (Bool.eq_false_iff.mpr hc) (hr.setStage _)

-- A read that ends the attempts at an address settles it or ends the cycle.
theorem settleAddress_turn {s m : System} {id : TaskId} {job : Job} {cycle : HubCycle} {a : Address}
    {watchers : List Nat} {rest : List (Address × List Nat)} {revision : UInt64} {attempt due : Nat}
    {result : FetchResult CoilValue} {cache : Cache} {offers : List Deed}
    {stored : Option CachedValue} (hjob : s.job? id = some job)
    (hst : s.stage? id = some (.reading cycle revision attempt due))
    (hp : cycle.pending = (a, watchers) :: rest) (hc : s.hub.cancelled = false)
    (hobtains : Obtains s.hub.cache revision a result cache offers stored)
    (h : Turned id s (.reading cycle revision attempt due) s.cycleLock s.transport cache
      s.hub.lastSuccess (.hears a result :: offers) m) :
    Turn id s (m.settleAddress id cycle a stored) := by
  have hs := ((h.note (.settles a)).callEach (cycle.settle stored).2).releaseTransport
  rw [List.append_assoc, List.singleton_append] at hs
  have hpending : (cycle.settle stored).1.pending = rest := by simp [Cycle.settle, hp]
  by_cases hrest : rest = []
  · subst hrest
    have hlast := hs.proceed_nil hjob hpending
    rw [List.append_assoc] at hlast
    exact .settlesLast hjob hst hp hc hobtains h.hub hlast
  · exact .settles hst hp hrest hc hobtains h.hub (hs.proceed_cons (by rw [hpending]; exact hrest))

theorem readAnswered_turn {s m : System} {id : TaskId} {job : Job} {cycle : HubCycle} {a : Address}
    {watchers : List Nat} {rest : List (Address × List Nat)} {revision : UInt64} {attempt due : Nat}
    (result : FetchResult CoilValue) (hjob : s.job? id = some job)
    (hst : s.stage? id = some (.reading cycle revision attempt due))
    (hp : cycle.pending = (a, watchers) :: rest) (hc : s.hub.cancelled = false)
    (hcm : m.hub.cancelled = false)
    (h : Turned id s (.reading cycle revision attempt due) s.cycleLock s.transport s.hub.cache
      s.hub.lastSuccess [.hears a result] m) :
    Turn id s (m.readAnswered id cycle a revision attempt result) := by
  have hfail : ∀ e, result = .error e → (∀ b, e ≠ .notFound b) →
      (∃ reason, Retry.conclude? attempt (Retry.limit s.hub.settings.readRetries - attempt)
        (.error e) = some (.error reason : Except RetryError CoilValue)) →
      Turn id s (m.abort id cycle (.refreshFailed a e)) := by
    rintro e rfl hfound hreason
    obtain ⟨last, hlast, ha⟩ := h.abort hjob cycle (.refreshFailed a e)
    exact .fails hjob hst hp hc hreason hfound h.hub hlast ha
  unfold readAnswered
  rw [h.hub.settings]
  cases hr : Retry.conclude? attempt (Retry.limit s.hub.settings.readRetries - attempt) result with
  | none =>
      simp only [beginAttempt, hcm, Bool.false_eq_true, if_false]
      have ha := (h.mapHub (f := (·.beginRead a)) (.of_eq rfl rfl rfl rfl rfl rfl rfl)).note (.asks a)
      exact .asksAgain hst hp hc hr (ha.setStage _)
  | some outcome =>
      cases result with
      | ok value =>
          obtain rfl : Except.ok value = outcome := by simpa [Retry.conclude?] using hr
          dsimp only
          unfold store
          rw [h.cache_eq]
          cases hstore : s.hub.cache.store? revision a value with
          | none =>
              exact settleAddress_turn hjob hst hp hc (.refused hstore) (h.note _)
          | some next =>
              exact settleAddress_turn hjob hst hp hc (.stored hstore) ((h.setCache next).note _)
      | error e =>
          cases e with
          | notFound b =>
              obtain rfl : Except.error (.rejected (.notFound b)) = outcome := by
                simpa [Retry.conclude?, FetchError.isTransient] using hr
              exact settleAddress_turn hjob hst hp hc (.missing b) h
          | fatal text =>
              obtain rfl : Except.error (.rejected (.fatal text)) = outcome := by
                simpa [Retry.conclude?, FetchError.isTransient] using hr
              exact hfail _ rfl (by simp) ⟨_, hr⟩
          | transient text =>
              obtain rfl : Except.error (.exhausted attempt (.transient text)) = outcome := by
                simp only [Retry.conclude?, FetchError.isTransient] at hr
                grind
              exact hfail _ rfl (by simp) ⟨_, hr⟩

theorem writeAnswered_turn {s m : System} {id : TaskId} {a : Address} {value : CoilValue}
    {revision : UInt64} {hadData : Bool} (result : FetchResult CoilValue)
    (hst : s.stage? id = some (.writing a value revision hadData))
    (h : Turned id s (.writing a value revision hadData) s.cycleLock s.transport s.hub.cache
      s.hub.lastSuccess [.receives a result] m) :
    Turn id s (m.writeAnswered id a revision hadData result) := by
  cases result with
  | error e => exact .refused hst (h.releaseTransport.setStage _)
  | ok ack =>
      -- whether the value was stored makes no difference to the rest
      have hrest : ∀ {m' : System} {cache : Cache} {offers : List Deed} {stored : Option CachedValue},
          Obtains s.hub.cache revision a (.ok ack) cache offers stored →
          Turned id s (.writing a value revision hadData) s.cycleLock s.transport cache
            s.hub.lastSuccess (.receives a (.ok ack) :: offers) m' →
          Turn id s (((if hadData then m'.callEach id (m'.hub.registry.watching a) else m')
            |>.releaseTransport).finish id (.ok (.acknowledged ack))) := by
        intro m' cache offers stored hobtains h'
        refine .acknowledged hst hobtains h'.hub ?_
        cases hadData with
        | true => exact (h'.callEach _).releaseTransport.setStage _
        | false => simpa using h'.releaseTransport.finish (.ok (.acknowledged ack))
      unfold writeAnswered
      dsimp only
      unfold store
      rw [h.cache_eq]
      cases hstore : s.hub.cache.store? revision a ack with
      | none => exact hrest (.refused hstore) (h.note _)
      | some next => exact hrest (.stored hstore) ((h.setCache next).note _)

theorem misfit {s : System} {id : TaskId} {job : Job} {stage : Stage}
    (hjob : s.job? id = some job) (hst : s.stage? id = some stage) (hfit : ¬stage.Fits job) :
    Turn id s s :=
  .stays rfl (.inr ⟨job, stage, hjob, hst, hfit⟩)

theorem step_turn (s : System) (id : TaskId) : Turn id s (s.step id) := by
  unfold step
  cases ht : s.tasks[id]? with
  | none => exact .stays rfl (.inl (by simp [enabled, ht]))
  | some t =>
      have hjob : s.job? id = some t.job := by simp [job?, ht]
      have hstage : s.stage? id = some t.stage := by simp [stage?, ht]
      cases he : s.enabled id with
      | false => simpa [he] using Turn.stays rfl (.inl he)
      | true =>
          have hcan := he
          simp only [enabled, ht, Bool.not_true, Bool.false_eq_true, if_false] at hcan ⊢
          cases hst : t.stage with
          | fresh => exact begin_turn hjob (hstage.trans (congrArg some hst))
          | awaitingCycle =>
              rw [hst] at hstage hcan
              exact beginCycle_turn hjob hstage (by simpa [Lock.isHeldBy] using hcan)
          | awaitingTransport cycle =>
              rw [hst] at hstage hcan
              dsimp only
              cases hp : cycle.pending with
              | nil => exact misfit hjob hstage (by simp [Stage.Fits, hp])
              | cons entry rest =>
                  exact beginRead_turn hjob hstage hp (by simpa [Lock.isHeldBy] using hcan)
          | reading cycle revision attempt due =>
              rw [hst] at hstage
              have h := Turned.start hstage
              dsimp only
              cases hp : cycle.pending with
              | nil => exact misfit hjob hstage (by simp [Stage.Fits, hp])
              | cons entry rest =>
                  dsimp only
                  split
                  case isTrue hc =>
                    obtain ⟨last, -, ha⟩ := h.abort hjob cycle .cancelled
                    rw [successAfter_cancelled, toldAfter_cancelled] at ha
                    exact .givesUp hjob hstage (by simp [hp]) hc h.hub ha
                  case isFalse hc =>
                    have hc := Bool.eq_false_iff.mpr hc
                    have hf := h.mapHub (f := fun hub => (hub.finishRead entry.1).2)
                      (.of_eq rfl rfl rfl rfl rfl rfl rfl)
                    exact readAnswered_turn _ hjob hstage hp hc hc (hf.note _)
          | awaitingWrite a value =>
              rw [hst] at hstage hcan
              have h := (Turned.start hstage).reserve
              have hw := h.mapHub (f := (·.beginWrite a value)) (.of_eq rfl rfl rfl rfl rfl rfl rfl)
              exact .sends hstage (by simpa [Lock.isHeldBy] using hcan)
                ((hw.note (.sends a value)).setStage _)
          | writing a value revision hadData =>
              rw [hst] at hstage
              have hf := (Turned.start hstage).mapHub (f := fun hub => (hub.finishWrite a value).2)
                (.of_eq rfl rfl rfl rfl rfl rfl rfl)
              exact writeAnswered_turn _ hstage (hf.note _)
          | idle =>
              rw [hst] at hstage
              cases hj : t.job with
              | updates period => exact update_turn _ (hjob.trans (congrArg some hj)) hstage
              | drift period =>
                  rw [hj] at hjob
                  have hd := (Turned.start hstage).mapHub
                    (f := (·.mapPump (·.drift (t.ticks + 1)))) (Hub.kept_mapPump _ _)
                  exact .rests hjob rfl hstage (.inr ⟨rfl, period, rfl⟩) (hd.setTimers _ _)
              | _ => exact misfit hjob hstage (by simp [Stage.Fits, Job.waits, hj])
          | finished outcome =>
              rw [hst] at hcan
              cases hcan

end System

end CoilHub
