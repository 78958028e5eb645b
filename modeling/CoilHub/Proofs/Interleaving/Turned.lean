import CoilHub.Proofs.Interleaving.Frame

namespace CoilHub.System

theorem stage?_mapTask (s : System) (id j : TaskId) (f : Task → Task) :
    (s.mapTask id f).stage? j =
      if id = j then s.tasks[j]?.map (fun t => (f t).stage) else s.stage? j := by
  simp only [stage?, mapTask, List.getElem?_modify]
  split
  · cases s.tasks[j]? <;> simp
  · simp

theorem job?_mapTask (s : System) (id j : TaskId) (f : Task → Task) (hf : ∀ t, (f t).job = t.job) :
    (s.mapTask id f).job? j = s.job? j := by
  simp only [job?, mapTask, List.getElem?_modify]
  cases s.tasks[j]? with
  | none => rfl
  | some t => by_cases h : id = j <;> simp [h, hf]

-- What a part of a step has made of a system: where the task stands, who is at the locks, what is cached, how
-- the flag stands and what has gone into the journal. Listeners may have done what they are able to do.
structure Turned (id : TaskId) (s : System) (stage : Stage) (cycleLock transport : Lock)
    (cache : Cache) (success : Bool) (deeds : List Deed) (s' : System) : Prop where
  stage : s'.stage? id = some stage
  others : ∀ j, j ≠ id → s'.stage? j = s.stage? j
  jobs : ∀ j, s'.job? j = s.job? j
  cycleLock : s'.cycleLock = cycleLock
  transport : s'.transport = transport
  hub : Hub.Kept { s.hub with cache, lastSuccess := success } s'.hub
  journal : s'.journal = (deeds.map fun deed => (id, deed)).reverse ++ s.journal

namespace Turned

variable {id : TaskId} {s m : System} {stage : Stage} {cycleLock transport : Lock} {cache : Cache}
  {success : Bool} {deeds : List Deed}

theorem start (hst : s.stage? id = some stage) :
    Turned id s stage s.cycleLock s.transport s.hub.cache s.hub.lastSuccess [] s :=
  ⟨hst, fun _ _ => rfl, fun _ => rfl, rfl, rfl, .refl _, rfl⟩

section

variable (h : Turned id s stage cycleLock transport cache success deeds m)
include h

theorem log_eq : m.log = s.log ++ deeds := by
  unfold log
  rw [h.journal, List.map_append, List.reverse_append, List.map_reverse, List.reverse_reverse,
    List.map_map]
  simp [Function.comp_def]

theorem deeds_self : m.deeds id = s.deeds id ++ deeds := by
  unfold System.deeds
  rw [h.journal, List.filterMap_append, List.reverse_append, List.filterMap_reverse,
    List.reverse_reverse, List.filterMap_map]
  have hown : (fun entry : TaskId × Deed => if entry.1 = id then some entry.2 else none) ∘
      (fun deed => (id, deed)) = some := by
    funext deed
    exact if_pos rfl
  rw [hown, List.filterMap_some]

theorem deeds_other {j : TaskId} (hj : j ≠ id) : m.deeds j = s.deeds j := by
  unfold System.deeds
  rw [h.journal, List.filterMap_append, List.reverse_append, List.filterMap_reverse,
    List.reverse_reverse, List.filterMap_map]
  have hnone : deeds.filterMap ((fun entry : TaskId × Deed =>
      if entry.1 = j then some entry.2 else none) ∘ fun deed => (id, deed)) = [] := by
    rw [List.filterMap_eq_nil_iff]
    exact fun deed _ => if_neg (Ne.symm hj)
  rw [hnone, List.append_nil]

theorem cache_eq : m.hub.cache = cache := h.hub.cache

theorem success_eq : m.hub.lastSuccess = success := h.hub.success

theorem cancelled (hc : s.hub.cancelled = true) : m.hub.cancelled = true := h.hub.cancelled hc

theorem mapHub {f : Hub → Hub} (hf : m.hub.Kept (f m.hub)) :
    Turned id s stage cycleLock transport cache success deeds (m.mapHub f) :=
  { h with hub := h.hub.trans hf }

theorem setCache (next : Cache) :
    Turned id s stage cycleLock transport next success deeds { m with hub.cache := next } :=
  { h with hub := { h.hub with cache := rfl } }

theorem setSuccess (next : Bool) :
    Turned id s stage cycleLock transport cache next deeds
      (m.mapHub fun hub => { hub with lastSuccess := next }) :=
  { h with hub := { h.hub with success := rfl } }

theorem note (deed : Deed) :
    Turned id s stage cycleLock transport cache success (deeds ++ [deed]) (m.note id deed) :=
  { h with journal := by simp [System.note, h.journal] }

theorem callEach (ls : List HubListener) :
    Turned id s stage cycleLock transport cache success (deeds ++ [.calls m.hub ls])
      (m.callEach id ls) :=
  (h.note _).mapHub (Hub.kept_callEach m.hub ls)

theorem reserve :
    Turned id s stage cycleLock transport cache.nextRevision.2 success
      (deeds ++ [.reserves cache.nextRevision.1]) (m.reserve id).2 := by
  have hn := (h.setCache m.hub.cache.nextRevision.2).note (.reserves m.hub.cache.nextRevision.1)
  rw [h.cache_eq] at hn
  simpa only [System.reserve, Hub.nextRevision, h.cache_eq] using hn

theorem setStage (next : Stage) :
    Turned id s next cycleLock transport cache success deeds (m.setStage id next) where
  stage := by
    obtain ⟨t, ht, -⟩ := Option.map_eq_some_iff.mp h.stage
    simp [System.setStage, stage?_mapTask, ht]
  others := by
    intro j hj
    rw [← h.others j hj]
    simp [System.setStage, stage?_mapTask, Ne.symm hj]
  jobs := by
    intro j
    rw [← h.jobs j]
    exact job?_mapTask m id j _ fun _ => rfl
  cycleLock := h.cycleLock
  transport := h.transport
  hub := h.hub
  journal := h.journal

theorem finish (outcome : Outcome) :
    Turned id s (.finished outcome) cycleLock transport cache success deeds
      (m.finish id outcome) := h.setStage _

-- The timers of a task are its own affair.
theorem setTimers (nextTick ticks : Task → Nat) :
    Turned id s stage cycleLock transport cache success deeds
      (m.mapTask id fun t => { t with nextTick := nextTick t, ticks := ticks t }) where
  stage := by
    obtain ⟨t, ht, hs⟩ := Option.map_eq_some_iff.mp h.stage
    simp [stage?_mapTask, ht, hs]
  others := by
    intro j hj
    rw [← h.others j hj]
    simp [stage?_mapTask, Ne.symm hj]
  jobs := by
    intro j
    rw [← h.jobs j]
    exact job?_mapTask m id j _ fun _ => rfl
  cycleLock := h.cycleLock
  transport := h.transport
  hub := h.hub
  journal := h.journal

omit h in
theorem kept_wakeHolder (hub : Hub) (lock : Lock) : hub.Kept (wakeHolder hub lock) := by
  unfold wakeHolder
  split
  · exact .refl hub
  · exact Hub.kept_wake hub _

theorem releaseCycle :
    Turned id s stage cycleLock.release transport cache success deeds m.releaseCycle :=
  { h with
    cycleLock := congrArg Lock.release h.cycleLock
    hub := h.hub.trans (kept_wakeHolder _ _) }

theorem releaseTransport :
    Turned id s stage cycleLock transport.release cache success deeds m.releaseTransport :=
  { h with
    transport := congrArg Lock.release h.transport
    hub := h.hub.trans (kept_wakeHolder _ _) }

theorem requestCycle :
    Turned id s .awaitingCycle (cycleLock.request id) transport cache success deeds
      (m.requestCycle id) := by
  have hl : Turned id s stage (cycleLock.request id) transport cache success deeds
      { m with cycleLock := m.cycleLock.request id } :=
    { h with cycleLock := congrArg (·.request id) h.cycleLock }
  exact hl.setStage _

theorem requestTransport (next : Stage) :
    Turned id s next cycleLock (transport.request id) cache success deeds
      (m.requestTransport id next) := by
  have hl : Turned id s stage cycleLock (transport.request id) cache success deeds
      { m with transport := m.transport.request id } :=
    { h with transport := congrArg (·.request id) h.transport }
  exact hl.setStage _

theorem doorbell (bell : Doorbell) :
    Turned id s stage cycleLock transport cache success deeds { m with hub.doorbell := bell } :=
  { h with hub := h.hub.trans (.of_eq rfl rfl rfl rfl rfl rfl rfl) }

theorem rest : Turned id s .idle cycleLock transport cache success deeds (m.rest id) := by
  have hs := h.setStage .idle
  unfold System.rest
  dsimp only
  split
  · exact hs
  · exact hs.doorbell _

theorem leaveDoorbell :
    Turned id s stage cycleLock transport cache success deeds (m.leaveDoorbell id) := by
  unfold System.leaveDoorbell
  dsimp only
  split
  · exact (h.doorbell _).mapHub (Hub.kept_requestRefresh _)
  · exact h.doorbell _

theorem answerBell :
    Turned id s stage cycleLock transport cache success deeds (m.answerBell id) := by
  unfold System.answerBell
  dsimp only
  split <;> exact h.doorbell _

end

end Turned

end CoilHub.System
