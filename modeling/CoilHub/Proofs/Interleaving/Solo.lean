import CoilHub.Hub.Schedule
import CoilHub.Proofs.Interleaving.Service
import CoilHub.Proofs.Writes.Effect

namespace CoilHub.System

variable {s t u : System} {id : TaskId} {n m : Nat} {job : Job} {outcome : Outcome}

-- A task can go on and makes a step, so many times in a row.
inductive Walks (id : TaskId) : Nat → System → System → Prop
  | stands (s : System) : Walks id 0 s s
  | walks {n : Nat} {s t : System} (he : s.enabled id = true) (h : Walks id n (s.step id) t) :
    Walks id (n + 1) s t

theorem Walks.single (he : s.enabled id = true) : Walks id 1 s (s.step id) := .walks he (.stands _)

theorem Walks.trans (h : Walks id n s t) (h' : Walks id m t u) : Walks id (n + m) s u := by
  induction h with
  | stands s => rwa [Nat.zero_add]
  | walks he _ ih =>
      rw [Nat.add_right_comm]
      exact .walks he (ih h')

theorem stage?_step_of_ne (s : System) {j : TaskId} (hj : j ≠ id) : (s.step id).stage? j = s.stage? j := by
  rcases (step_turn s id).turned with hs | ⟨stage, cycleLock, transport, cache, success, deeds, h⟩
  · rw [hs]
  · exact h.others j hj

theorem Walks.stage?_of_ne (h : Walks id n s t) {j : TaskId} (hj : j ≠ id) : t.stage? j = s.stage? j := by
  induction h with
  | stands s => rfl
  | walks _ _ ih => exact ih.trans (stage?_step_of_ne _ hj)

theorem job?_step (h : s.job? id = some job) (j : TaskId) : (s.step j).job? id = some job :=
  job?_move h (.step j)

-- Nobody has anything left to do.
def Idle (s : System) : Prop := ∀ id, s.enabled id = false

theorem Idle.next? (h : s.Idle) (foreground : Option TaskId) : s.next? foreground = none := by
  have hfind : (s.hub.woken ++ List.range s.tasks.length).find?
      (fun id => some id ≠ foreground && s.enabled id) = none :=
    List.find?_eq_none.mpr fun id _ => by simp [h id]
  have hforeground : foreground.filter (s.enabled ·) = none := by
    cases foreground with
    | none => rfl
    | some id => simp [h id]
  rw [System.next?, hfind, hforeground]
  rfl

theorem Idle.runWithin (h : s.Idle) (foreground current : Option TaskId) (fuel : Nat) :
    runWithin foreground (fuel + 1) current s = { s with hub.woken := [] } := by
  have hcurrent : current.filter (s.enabled ·) = none := by
    cases current with
    | none => rfl
    | some id => simp [h id]
  rw [System.runWithin, hcurrent]
  dsimp only
  rw [h.next? foreground]

-- The task in the foreground keeps the thread for as long as it can go on.
theorem Walks.runWithin (h : Walks id n s t) (ht : t.Idle) {fuel : Nat} (hfuel : n < fuel)
    (foreground : Option TaskId) :
    runWithin foreground fuel (some id) s = { t with hub.woken := [] } := by
  induction h generalizing fuel with
  | stands s =>
      obtain ⟨fuel, rfl⟩ := Nat.exists_eq_add_one.mpr hfuel
      exact ht.runWithin foreground _ fuel
  | walks he _ ih =>
      obtain ⟨fuel, rfl⟩ := Nat.exists_eq_add_one.mpr (Nat.zero_lt_of_lt hfuel)
      have hcurrent : (some id).filter (fun id => System.enabled _ id) = some id :=
        Option.filter_eq_some_iff.mpr ⟨rfl, he⟩
      rw [System.runWithin, hcurrent]
      exact ih ht (Nat.lt_of_succ_lt_succ hfuel)

-- Whoever is through has an outcome, and nothing else is left to do.
structure Through (id : TaskId) (outcome : Outcome) (s : System) : Prop where
  stage : s.stage? id = some (.finished outcome)
  others : ∀ j, j ≠ id → ∀ stage, s.stage? j = some stage → ∃ outcome, stage = .finished outcome

theorem Through.idle (h : s.Through id outcome) : s.Idle := by
  intro j
  by_cases hj : j = id
  · exact not_enabled_of_finished (hj ▸ h.stage)
  · cases hst : s.stage? j with
    | none =>
        have htask : s.tasks[j]? = none := by simpa [stage?] using hst
        rw [enabled, htask]
    | some stage =>
        obtain ⟨outcome, rfl⟩ := h.others j hj stage hst
        exact not_enabled_of_finished hst

-- All jobs so far have come to their end, the locks are free and nothing has been cancelled.
structure Rested (s : System) : Prop where
  finished : ∀ id stage, s.stage? id = some stage → ∃ outcome, stage = .finished outcome
  cycleLock : s.cycleLock = {}
  transport : s.transport = {}
  cancelled : s.hub.cancelled = false

-- One more task, for a job.
def employ (s : System) (job : Job) : System := { s with tasks := s.tasks ++ [{ job }] }

theorem stage?_employ (s : System) (job : Job) (id : TaskId) :
    (s.employ job).stage? id = if id = s.tasks.length then some .fresh else s.stage? id :=
  stage?_spawn s job id

theorem Rested.stage?_employ_of_ne (hs : s.Rested) {j : TaskId} (hj : j ≠ s.tasks.length) {stage : Stage}
    (h : (s.employ job).stage? j = some stage) : ∃ outcome, stage = .finished outcome := by
  rw [stage?_employ, if_neg hj] at h
  exact hs.finished j stage h

theorem job?_employ (s : System) (job : Job) : (s.employ job).job? s.tasks.length = some job := by
  simp [employ, job?]

theorem patience_pos : ∃ n, patience = n + 1 := ⟨999999, rfl⟩

-- A job that is run comes to the end of its walk.
theorem run_of_walks (hs : s.Rested) (h : Walks s.tasks.length n (s.employ job) t) (hn : n < patience)
    (hst : t.stage? s.tasks.length = some (.finished outcome)) :
    s.run job = (some outcome, { t with hub.woken := [] }) := by
  have hthrough : t.Through s.tasks.length outcome := by
    refine ⟨hst, fun j hj stage hstage => ?_⟩
    rw [h.stage?_of_ne hj] at hstage
    exact hs.stage?_employ_of_ne hj hstage
  obtain ⟨fuel, hfuel⟩ := patience_pos
  let final : System := { t with hub.woken := [] }
  have hfinal : final.Idle := Through.idle ⟨hthrough.stage, hthrough.others⟩
  have houtcome : final.outcome? s.tasks.length = some outcome := by
    have hstage : final.stage? s.tasks.length = some (.finished outcome) := hst
    rw [outcome?, hstage]
  have hsettled : final.settle (some s.tasks.length) = final := by
    rw [settle, hfuel, hfinal.runWithin]
  have hjoined : final.join s.tasks.length (some s.tasks.length) = final := by
    have hfinished : final.isFinished s.tasks.length = true := by rw [isFinished, houtcome]; rfl
    rw [join, hfuel, waitWithin, hsettled, if_pos hfinished]
  have hrun : runWithin (some s.tasks.length) patience (some s.tasks.length) (s.employ job) = final :=
    h.runWithin hthrough.idle hn _
  unfold run
  dsimp only
  unfold employ at hrun
  rw [hrun, hjoined, houtcome]

theorem stage?_finish {stage : Stage} (h : s.stage? id = some stage) (outcome : Outcome) :
    (s.finish id outcome).stage? id = some (.finished outcome) := by
  obtain ⟨t, ht, -⟩ := Option.map_eq_some_iff.mp h
  simp [finish, setStage, stage?_mapTask, ht]

theorem enabled_of_fresh (hst : s.stage? id = some .fresh) : s.enabled id = true := by
  obtain ⟨t, ht, hstage⟩ := Option.map_eq_some_iff.mp hst
  simp [enabled, ht, hstage]

theorem enabled_of_awaitingCycle (hst : s.stage? id = some .awaitingCycle)
    (hl : s.cycleLock.holder = some id) : s.enabled id = true := by
  obtain ⟨t, ht, hstage⟩ := Option.map_eq_some_iff.mp hst
  simp [enabled, ht, hstage, Lock.isHeldBy, hl]

theorem enabled_of_awaitingTransport {cycle : HubCycle}
    (hst : s.stage? id = some (.awaitingTransport cycle)) (hl : s.transport.holder = some id) :
    s.enabled id = true := by
  obtain ⟨t, ht, hstage⟩ := Option.map_eq_some_iff.mp hst
  simp [enabled, ht, hstage, Lock.isHeldBy, hl]

theorem enabled_of_reading {cycle : HubCycle} {revision : UInt64} {attempt due : Nat}
    (hst : s.stage? id = some (.reading cycle revision attempt due)) (hdue : due ≤ s.now) :
    s.enabled id = true := by
  obtain ⟨t, ht, hstage⟩ := Option.map_eq_some_iff.mp hst
  simp [enabled, ht, hstage, hdue]

section Start

-- What a start leaves behind.
structure Started (s t : System) : Prop where
  rested : t.Rested
  cache : t.hub.cache = s.hub.cache
  registry : t.hub.registry = s.hub.registry
  gateway : t.hub.gateway = s.hub.gateway.start.2

theorem run_start (hs : s.Rested) :
    ∃ t, s.run .start = (some (s.hub.start.1.map fun _ => .started), t) ∧ Started s t := by
  have hjob := job?_employ s .start
  have hst : (s.employ .start).stage? s.tasks.length = some .fresh := by rw [stage?_employ, if_pos rfl]
  have hstep : (s.employ .start).step s.tasks.length =
      ({ s.employ .start with hub := s.hub.start.2 } : System).finish s.tasks.length
        (s.hub.start.1.map fun _ => .started) := step_fresh hjob hst
  have hwalk : Walks s.tasks.length 1 (s.employ .start) _ := .single (enabled_of_fresh hst)
  have hend : ((s.employ .start).step s.tasks.length).stage? s.tasks.length =
      some (.finished (s.hub.start.1.map fun _ => .started)) := by
    rw [hstep]
    exact stage?_finish hst _
  refine ⟨_, run_of_walks hs hwalk (by decide) hend, ?_, ?_, ?_, ?_⟩
  · refine ⟨fun j stage hstage => ?_, ?_, ?_, ?_⟩
    · have hstage : ((s.employ .start).step s.tasks.length).stage? j = some stage := hstage
      by_cases hj : j = s.tasks.length
      · rw [hj, hend] at hstage
        cases hstage
        exact ⟨_, rfl⟩
      · rw [stage?_step_of_ne _ hj] at hstage
        exact hs.stage?_employ_of_ne hj hstage
    all_goals rw [hstep]
    · exact hs.cycleLock
    · exact hs.transport
    · exact hs.cancelled
  all_goals
    rw [hstep]
    rfl

end Start

section Write

variable {a : Address} {value : CoilValue}

end Write

end CoilHub.System
