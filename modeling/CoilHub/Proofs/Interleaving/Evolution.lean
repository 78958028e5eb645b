import CoilHub.Proofs.Interleaving.Locks
import CoilHub.Proofs.Listeners.Calling

namespace CoilHub

namespace Deed

def isCall : Deed → Bool
  | .calls _ _ => true
  | _ => false

-- Whether a deed is noted and nothing else is done.
def isRemark : Deed → Bool
  | .begins _ | .settles _ | .abandons | .returns _ => true
  | _ => false

end Deed

-- One thing that a task with that job does, and the deed that tells of it, if there is one. The device is
-- called, the calls are recorded and the listeners are told just as the deed says, and the cache takes
-- what it is offered.
inductive Hub.Does (job : Job) (hub : Hub) : List Deed → Hub → Prop
  -- the flag and what tasks wake one another with are no affair of the device or of listeners
  | keeps (success : Bool) (bell : Doorbell) (woken : List TaskId) :
    Does job hub [] { hub with lastSuccess := success, doorbell := bell, woken }
  | remarks {deed : Deed} (hdeed : deed.isRemark = true) : Does job hub [deed] hub
  | reserves :
    Does job hub [.reserves hub.cache.nextRevision.1] { hub with cache := hub.cache.nextRevision.2 }
  | stores {revision : UInt64} {a : Address} {value : CoilValue} {cache : Cache}
    (hstore : hub.cache.store? revision a value = some cache) :
    Does job hub [.offers revision a value true] { hub with cache }
  | refuses {revision : UInt64} {a : Address} {value : CoilValue}
    (hstore : hub.cache.store? revision a value = none) :
    Does job hub [.offers revision a value false] hub
  | asks (hjob : job.refreshes = true) (a : Address) :
    Does job hub [.asks a]
      { hub with gateway := hub.gateway.beginRead a, history := .read a :: hub.history }
  | hears {a : Address} {result : FetchResult CoilValue} {g : Gateway} (hjob : job.refreshes = true)
    (hread : hub.gateway.finishRead a = (result, g)) :
    Does job hub [.hears a result] { hub with gateway := g }
  | sends {a : Address} {value : CoilValue} (hjob : job = .write a value) :
    Does job hub [.sends a value] { hub with history := .write a value :: hub.history }
  | receives {a : Address} {value : CoilValue} {result : FetchResult CoilValue} {g : Gateway}
    (hjob : job = .write a value) (hwrite : hub.gateway.write a value = (result, g)) :
    Does job hub [.receives a result] { hub with gateway := g }
  | calls {ls : List HubListener} {next : Hub} (hcalls : hub.Calls ls next) :
    Does job hub [.calls hub ls] next
  | opens (hjob : job = .start) : Does job hub [] { hub with gateway := hub.gateway.start.2 }
  | closes (hjob : job = .shutdown) :
    Does job hub [] { hub with gateway := hub.gateway.stop, cancelled := true }
  | drifts {period : Nat} (hjob : job = .drift period) (n : Nat) :
    Does job hub [] { hub with gateway := hub.gateway.mapPump (·.drift n) }

-- From one state of a hub to another one in the course of these deeds.
inductive Hub.Enacts (job : Job) (start : Hub) : List Deed → Hub → Prop
  | starts : Enacts job start [] start
  | goesOn {deeds more : List Deed} {m next : Hub} (h : Enacts job start deeds m)
    (hdoes : m.Does job more next) : Enacts job start (deeds ++ more) next

-- The same as far as the registry and the displays go. Listeners are called as the deeds tell, and in
-- between nobody touches either of them.
inductive Hub.Evolves (start : Hub) : List Deed → Hub → Prop
  | starts : Evolves start [] start
  | drifts {deeds : List Deed} {m next : Hub} (h : Evolves start deeds m)
    (hregistry : next.registry = m.registry) (hdisplays : next.displays = m.displays) :
    Evolves start deeds next
  | notes {deeds : List Deed} {m : Hub} {deed : Deed} (h : Evolves start deeds m)
    (hdeed : deed.isCall = false) : Evolves start (deeds ++ [deed]) m
  | calls {deeds : List Deed} {m : Hub} (h : Evolves start deeds m) (ls : List HubListener) :
    Evolves start (deeds ++ [.calls m ls]) (m.callEach ls)

theorem Hub.Evolves.deed {start m next : Hub} {deeds : List Deed} (h : start.Evolves deeds m)
    (deed : Deed) (hdeed : deed.isCall = false) (hregistry : next.registry = m.registry)
    (hdisplays : next.displays = m.displays) : start.Evolves (deeds ++ [deed]) next :=
  (h.drifts hregistry hdisplays).notes hdeed

theorem Hub.Enacts.evolves {job : Job} {start hub : Hub} {deeds : List Deed}
    (h : start.Enacts job deeds hub) : start.Evolves deeds hub := by
  induction h with
  | starts => exact .starts
  | goesOn h hdoes ih =>
      cases hdoes with
      | keeps success bell woken =>
          rw [List.append_nil]
          exact ih.drifts rfl rfl
      | @remarks deed hdeed =>
          refine ih.notes ?_
          cases deed <;> first | rfl | cases hdeed
      | reserves => exact ih.deed (.reserves _) rfl rfl rfl
      | stores hstore => exact ih.deed (.offers _ _ _ true) rfl rfl rfl
      | refuses hstore => exact ih.deed (.offers _ _ _ false) rfl rfl rfl
      | asks hjob a => exact ih.deed (.asks a) rfl rfl rfl
      | hears hjob hread => exact ih.deed (.hears _ _) rfl rfl rfl
      | sends hjob => exact ih.deed (.sends _ _) rfl rfl rfl
      | receives hjob hwrite => exact ih.deed (.receives _ _) rfl rfl rfl
      | calls hcalls =>
          rw [Hub.calls_iff.mp hcalls]
          exact ih.calls _
      | opens hjob =>
          rw [List.append_nil]
          exact ih.drifts rfl rfl
      | closes hjob =>
          rw [List.append_nil]
          exact ih.drifts rfl rfl
      | drifts hjob n =>
          rw [List.append_nil]
          exact ih.drifts rfl rfl

namespace System

def Enacts (job : Job) (s m : System) : Prop :=
  ∃ deeds, m.log = s.log ++ deeds ∧ s.hub.Enacts job deeds m.hub

variable {s m : System} {id : TaskId} {job : Job}

theorem log_note (s : System) (id : TaskId) (deed : Deed) : (s.note id deed).log = s.log ++ [deed] := by
  simp [log, note]

namespace Enacts

theorem refl (s : System) : Enacts job s s := ⟨[], (List.append_nil _).symm, .starts⟩

section

variable (h : Enacts job s m)
include h

-- Something is done of which no deed tells.
theorem silent {next : System} (hjournal : next.journal = m.journal)
    (hdoes : m.hub.Does job [] next.hub) : Enacts job s next := by
  obtain ⟨deeds, hlog, hhubs⟩ := h
  refine ⟨deeds ++ [], ?_, hhubs.goesOn hdoes⟩
  rw [List.append_nil, ← hlog]
  exact log_of_journal_eq hjournal

-- Something is done of which a deed tells.
theorem deed {next : System} {deed : Deed} (hlog : next.log = m.log ++ [deed])
    (hdoes : m.hub.Does job [deed] next.hub) : Enacts job s next := by
  obtain ⟨deeds, hdeeds, hhubs⟩ := h
  exact ⟨deeds ++ [deed], by rw [hlog, hdeeds, List.append_assoc], hhubs.goesOn hdoes⟩

-- Locks, stages and timers are no part of the hub.
theorem keep {next : System} (success : Bool) (bell : Doorbell) (woken : List TaskId)
    (hjournal : next.journal = m.journal)
    (hhub : next.hub = { m.hub with lastSuccess := success, doorbell := bell, woken }) :
    Enacts job s next :=
  h.silent hjournal (hhub ▸ .keeps success bell woken)

theorem remark {deed : Deed} (hdeed : deed.isRemark = true) : Enacts job s (m.note id deed) :=
  h.deed (log_note m id deed) (.remarks hdeed)

theorem callEach (ls : List HubListener) : Enacts job s (m.callEach id ls) :=
  h.deed (log_note m id (.calls m.hub ls)) (.calls (m.hub.calls_callEach ls))

theorem reserve : Enacts job s (m.reserve id).2 :=
  h.deed (log_note m id (.reserves m.hub.cache.nextRevision.1)) .reserves

theorem store (revision : UInt64) (a : Address) (value : CoilValue) :
    Enacts job s (m.store id revision a value).2 := by
  unfold System.store
  split
  case h_1 next hstore =>
    exact h.deed (log_note m id (.offers revision a value true)) (.stores hstore)
  case h_2 hstore =>
    exact h.deed (log_note m id (.offers revision a value false)) (.refuses hstore)

theorem setStage (stage : Stage) : Enacts job s (m.setStage id stage) := h.keep _ _ _ rfl rfl

theorem finish (outcome : Outcome) : Enacts job s (m.finish id outcome) := h.setStage _

theorem releaseCycle : Enacts job s m.releaseCycle := by
  unfold System.releaseCycle wakeHolder
  dsimp only
  split <;> exact h.keep _ _ _ rfl rfl

theorem releaseTransport : Enacts job s m.releaseTransport := by
  unfold System.releaseTransport wakeHolder
  dsimp only
  split <;> exact h.keep _ _ _ rfl rfl

theorem requestRefresh : Enacts job s (m.mapHub Hub.requestRefresh) := by
  unfold mapHub Hub.requestRefresh
  split <;> exact h.keep _ _ _ rfl rfl

theorem rest : Enacts job s (m.rest id) := by
  unfold System.rest
  dsimp only
  split <;> exact h.keep _ _ _ rfl rfl

theorem leaveDoorbell : Enacts job s (m.leaveDoorbell id) := by
  have hleft : ∀ bell, Enacts job s { m with hub.doorbell := bell } := fun _ => h.keep _ _ _ rfl rfl
  unfold System.leaveDoorbell
  dsimp only
  split
  · exact (hleft _).requestRefresh
  · exact hleft _

theorem answerBell : Enacts job s (m.answerBell id) := by
  unfold System.answerBell
  dsimp only
  split <;> exact h.keep _ _ _ rfl rfl

theorem keepOutcome (result : RefreshResult) : Enacts job s (m.keepOutcome id result) := by
  have hfailed : Enacts job s (m.recordFailure id) := by
    unfold System.recordFailure
    split
    · have hcleared : Enacts job s (m.mapHub fun hub => { hub with lastSuccess := false }) :=
        h.keep _ _ _ rfl rfl
      exact hcleared.callEach _
    · exact h
  match result with
  | .ok _ => exact h.keep _ _ _ rfl rfl
  | .error .cancelled => exact h
  | .error (.refreshFailed _ _) => exact hfailed
  | .error (.writeFailed _ _) => exact hfailed
  | .error (.startFailed _) => exact hfailed

theorem conclude (result : RefreshResult) : Enacts job s (m.conclude id result) := by
  have hnoted : Enacts job s (m.note id (.returns result)) := h.remark rfl
  have hkept : Enacts job s ((m.note id (.returns result)).keepOutcome id result) :=
    hnoted.keepOutcome result
  unfold System.conclude
  dsimp only
  split
  · exact hkept.finish _
  · match result with
    | .ok _ => exact hkept.rest
    | .error .cancelled => exact hkept.finish _
    | .error (.refreshFailed _ _) => exact hkept.rest
    | .error (.writeFailed _ _) => exact hkept.rest
    | .error (.startFailed _) => exact hkept.rest
  · exact hnoted.finish _

theorem proceed (cycle : HubCycle) : Enacts job s (m.proceed id cycle) := by
  unfold System.proceed
  split
  · exact h.releaseCycle.conclude _
  · exact h.keep _ _ _ rfl rfl

theorem abort (cycle : HubCycle) (error : HubError) : Enacts job s (m.abort id cycle error) := by
  have hnoted : Enacts job s (m.note id .abandons) := h.remark rfl
  exact ((hnoted.callEach cycle.waiting).releaseTransport.releaseCycle).conclude _

theorem beginCycle : Enacts job s (m.beginCycle id) := by
  unfold System.beginCycle
  split
  · exact h.releaseCycle.conclude _
  · have hnoted : Enacts job s (m.note id (.begins m.hub.registry.listeners)) := h.remark rfl
    exact hnoted.proceed _

theorem settleAddress (cycle : HubCycle) (a : Address) (stored : Option CachedValue) :
    Enacts job s (m.settleAddress id cycle a stored) := by
  have hnoted : Enacts job s (m.note id (.settles a)) := h.remark rfl
  exact (hnoted.callEach (cycle.settle stored).2).releaseTransport.proceed _

theorem writeAnswered (a : Address) (revision : UInt64) (hadData : Bool)
    (result : FetchResult CoilValue) :
    Enacts job s (m.writeAnswered id a revision hadData result) := by
  cases result with
  | error e => exact h.releaseTransport.finish _
  | ok ack =>
      have hstored : Enacts job s (m.store id revision a ack).2 := h.store revision a ack
      have hcalled : Enacts job s (if hadData then
          (m.store id revision a ack).2.callEach id
            ((m.store id revision a ack).2.hub.registry.watching a)
          else (m.store id revision a ack).2) := by
        split
        · exact hstored.callEach _
        · exact hstored
      exact hcalled.releaseTransport.finish _

theorem update (period nextTick : Nat) : Enacts job s (m.update id period nextTick) := by
  unfold System.update
  split
  · exact h.leaveDoorbell.finish _
  · split
    · exact h.leaveDoorbell.keep _ _ _ rfl rfl
    · exact h.answerBell.keep _ _ _ rfl rfl

theorem begin : Enacts job s (m.begin id job) := by
  cases job with
  | refresh => exact h.keep _ _ _ rfl rfl
  | cycle => exact h.keep _ _ _ rfl rfl
  | write a value =>
      unfold System.begin
      dsimp only
      split <;> exact h.keep _ _ _ rfl rfl
  | start =>
      have hopened : Enacts .start s { m with hub := m.hub.start.2 } := h.silent rfl (.opens rfl)
      exact hopened.finish _
  | shutdown =>
      have hclosed : Enacts .shutdown s (m.mapHub Hub.shutdown) := h.silent rfl (.closes rfl)
      exact hclosed.finish _
  | updates period =>
      have hset : Enacts (.updates period) s (m.mapTask id fun t => { t with nextTick := m.now }) :=
        h.keep _ _ _ rfl rfl
      unfold System.begin
      dsimp only
      split
      · exact h.finish _
      · exact hset.rest
  | drift period =>
      unfold System.begin
      dsimp only
      split <;> exact h.keep _ _ _ rfl rfl

theorem driftOnce {period : Nat} (hjob : job = .drift period) (t : Task) :
    Enacts job s (m.driftOnce id t period) :=
  h.silent rfl (.drifts hjob (t.ticks + 1))

end

section

variable (h : Enacts job s m) (hjob : job.refreshes = true)
include h hjob

theorem beginAttempt (cycle : HubCycle) (a : Address) (revision : UInt64) (attempt : Nat) :
    Enacts job s (m.beginAttempt id cycle a revision attempt) := by
  unfold System.beginAttempt
  split
  · exact h.abort cycle _
  · have hasked : Enacts job s ((m.mapHub (·.beginRead a)).note id (.asks a)) :=
      h.deed (log_note _ id (.asks a)) (.asks hjob a)
    exact hasked.setStage _

theorem readAnswered (cycle : HubCycle) (a : Address) (revision : UInt64) (attempt : Nat)
    (result : FetchResult CoilValue) :
    Enacts job s (m.readAnswered id cycle a revision attempt result) := by
  unfold System.readAnswered
  split
  · exact h.beginAttempt hjob cycle a revision _
  · exact (h.store revision a _).settleAddress cycle a _
  · exact h.settleAddress cycle a none
  · exact h.abort cycle _
  · exact h.abort cycle _
  · exact h.abort cycle _

end

end Enacts

-- A task that reads refreshes, and one that writes has the value from its job.
theorem enacts_step (ho : s.Orderly) (hjob : s.job? id = some job) : Enacts job s (s.step id) := by
  have hself : Enacts job s s := .refl s
  obtain ⟨t, ht, rfl⟩ := Option.map_eq_some_iff.mp hjob
  have hfits : t.stage.Fits t.job := ho.fits id _ _ hjob (by simp [stage?, ht])
  unfold step
  rw [ht]
  dsimp only
  split
  · exact hself
  · cases hst : t.stage with
    | fresh => exact hself.begin
    | awaitingCycle => exact hself.beginCycle
    | awaitingTransport cycle =>
        rw [hst] at hfits
        dsimp only
        split
        · exact hself
        · exact hself.reserve.beginAttempt hfits.1 cycle _ _ _
    | reading cycle revision attempt due =>
        rw [hst] at hfits
        dsimp only
        split
        · exact hself
        case h_2 a watchers rest hp =>
          split
          · exact hself.abort cycle _
          · have hheard : Enacts t.job s ({ s with hub := (s.hub.finishRead a).2 }.note id
                (.hears a (s.hub.finishRead a).1)) :=
              hself.deed (log_note _ id _) (.hears hfits.1 rfl)
            exact hheard.readAnswered hfits.1 cycle a revision attempt _
    | awaitingWrite a value =>
        rw [hst] at hfits
        have hsent : Enacts t.job s (((s.reserve id).2.mapHub (·.beginWrite a value)).note id
            (.sends a value)) :=
          hself.reserve.deed (log_note _ id _) (.sends hfits)
        exact hsent.setStage _
    | writing a value revision hadData =>
        rw [hst] at hfits
        have hreceived : Enacts t.job s ({ s with hub := (s.hub.finishWrite a value).2 }.note id
            (.receives a (s.hub.finishWrite a value).1)) :=
          hself.deed (log_note _ id _) (.receives hfits rfl)
        exact hreceived.writeAnswered a revision hadData _
    | idle =>
        dsimp only
        split
        case h_1 period hj => exact hself.update period t.nextTick
        case h_2 period hj => exact hself.driftOnce hj t
        case h_3 => exact hself
    | finished outcome => exact hself

-- A turn of a task makes of the hub what its deeds say.
theorem hub_enacts_step (ho : s.Orderly) (hjob : s.job? id = some job) :
    s.hub.Enacts job (deedsSince s (s.step id)) (s.step id).hub := by
  obtain ⟨deeds, hlog, hhubs⟩ := enacts_step ho hjob
  rwa [deedsSince_of_log_eq hlog]

theorem step_of_no_job (h : s.job? id = none) : s.step id = s := by
  have hnone : s.tasks[id]? = none := by simpa [job?] using h
  exact step_of_not_enabled (by simp [enabled, hnone])

theorem step_evolves (ho : s.Orderly) (id : TaskId) :
    ∃ deeds, (s.step id).log = s.log ++ deeds ∧ s.hub.Evolves deeds (s.step id).hub := by
  cases hjob : s.job? id with
  | none =>
      rw [step_of_no_job hjob]
      exact ⟨[], (List.append_nil _).symm, .starts⟩
  | some job =>
      obtain ⟨deeds, hlog, hhubs⟩ := enacts_step ho hjob
      exact ⟨deeds, hlog, hhubs.evolves⟩

end System

end CoilHub
