import CoilHub.Proofs.Shutdown.Completion

namespace CoilHub

namespace System

variable {s : System} {moves : Nat → Move} {id : TaskId}

-- A call that is refused in a run. No step that it still makes reaches the pump or changes what is
-- cached, and a write leaves the whole hub as it is, so that nobody is called.
structure Refused (s : System) (moves : Nat → Move) (id : TaskId) : Prop where
  returns : ∃ n, (s.states moves n).stage? id = some (.finished (.error .cancelled))
  pump : ∀ n, moves n = .step id →
    ∀ deed ∈ deedsSince (s.states moves n) (s.states moves (n + 1)), deed.reachesPump = false
  cache : ∀ n, moves n = .step id →
    (s.states moves (n + 1)).hub.cache.entries = (s.states moves n).hub.cache.entries
  write : ∀ n a value, moves n = .step id →
    (s.states moves n).job? id = some (.write a value) →
    (s.states moves (n + 1)).hub = (s.states moves n).hub

-- What is expected of a shutdown: no call of the pump begins any more, and every refresh and write
-- that has not begun one is refused, whether it is there already or comes later.
structure Silenced (s : System) (moves : Nat → Move) : Prop where
  quiet : ∀ n, ∀ deed ∈ deedsSince (s.states moves n) (s.states moves (n + 1)),
    deed.beginsCall = false
  refused : ∀ id job n, (s.states moves n).job? id = some job → job.isCall = true →
    (∀ stage, s.stage? id = some stage → stage.unissued = true) → Refused s moves id

section

variable (ho : s.Orderly) (hc : s.hub.cancelled = true)
include ho hc

-- The only calls of the pump that begin are those of the writes that wait.
theorem begins_of_move (m : Move) {deed : Deed} (hmem : deed ∈ deedsSince s (s.move m))
    (hbegins : deed.beginsCall = true) :
    ∃ id a value, m = .step id ∧ deed = .sends a value ∧
      s.stage? id = some (.awaitingWrite a value) := by
  cases closing_move ho hc m with
  | @turns j job stage next _ _ _ _ deeds hm hjob hst h hw =>
      rw [deedsSince_of_log_eq h.log_eq] at hmem
      obtain ⟨a, value, hdeed, hstage⟩ := hw.begins deed hmem hbegins
      exact ⟨j, a, value, hm, hdeed, hstage ▸ hst⟩
  | passes ha hoff =>
      rw [ha.deedsSince_eq] at hmem
      cases hmem

theorem awaitingWrite_of_move {m : Move} {a : Address} {value : CoilValue}
    (hst : (s.move m).stage? id = some (.awaitingWrite a value)) :
    s.stage? id = some (.awaitingWrite a value) := by
  cases closing_move ho hc m with
  | @turns j job stage next _ _ _ _ deeds hm hjob hst' h hw =>
      by_cases hj : id = j
      · rw [hj, h.stage] at hst
        exact absurd (Option.some.inj hst) (hw.declines a value)
      · rwa [h.others id hj] at hst
  | passes ha hoff =>
      rcases ha.stages id with hsame | ⟨-, hfresh⟩ | ⟨-, hended⟩
      · rwa [hsame] at hst
      · rw [hfresh] at hst
        cases hst
      · rw [hended] at hst
        cases hst

theorem sends_of_move {m : Move} {a : Address} {value : CoilValue}
    (hst : s.stage? id = some (.awaitingWrite a value)) :
    (s.move m).stage? id = some (.awaitingWrite a value) ∨
      m = .step id ∧ .sends a value ∈ deedsSince s (s.move m) := by
  cases closing_move ho hc m with
  | @turns j job stage next _ _ _ _ deeds hm hjob hst' h hw =>
      by_cases hj : id = j
      · subst hj
        rw [hst] at hst'
        cases hst'
        rw [deedsSince_of_log_eq h.log_eq]
        exact .inr ⟨hm, hw.sends a value rfl⟩
      · exact .inl ((h.others id hj).trans hst)
  | passes ha hoff =>
      rcases ha.stages id with hsame | ⟨hnone, -⟩ | ⟨⟨period, hjob⟩, -⟩
      · exact .inl (hsame.trans hst)
      · rw [hst] at hnone
        cases hnone
      · cases ho.fits id _ _ hjob hst

variable {job : Job} (hjob : ∀ job', s.job? id = some job' → job' = job)
  (hcall : job.isCall = true) (hrefusing : ∀ stage, s.stage? id = some stage → stage.Refusing)
include hjob hcall hrefusing

theorem refusing_of_move {m : Move} {stage : Stage} (hst : (s.move m).stage? id = some stage) :
    stage.Refusing := by
  cases closing_move ho hc m with
  | @turns j job' before next _ _ _ _ deeds hm hjob' hst' h hw =>
      by_cases hj : id = j
      · subst hj
        rw [h.stage] at hst
        cases hst
        rcases hrefusing before hst' with hheedful | rfl
        · exact hw.refused hheedful (hjob job' hjob' ▸ hcall)
        · exact absurd (hjob job' hjob' ▸ hcall) hw.unfinished
      · rw [h.others id hj] at hst
        exact hrefusing stage hst
  | passes ha hoff =>
      rcases ha.stages id with hsame | ⟨-, hfresh⟩ | ⟨⟨period, hdrift⟩, -⟩
      · rw [hsame] at hst
        exact hrefusing stage hst
      · rw [hfresh] at hst
        cases hst
        exact .inl rfl
      · rw [← hjob _ hdrift] at hcall
        cases hcall

theorem harmless_of_move {m : Move} (hm : m = .step id) :
    (s.move m).hub.cache.entries = s.hub.cache.entries ∧
      ∀ deed ∈ deedsSince s (s.move m), deed.reachesPump = false := by
  cases closing_move ho hc m with
  | @turns j job' before next _ _ _ _ deeds hm' hjob' hst h hw =>
      rw [hm] at hm'
      cases hm'
      rw [h.cache_eq, deedsSince_of_log_eq h.log_eq]
      rcases hrefusing before hst with hheedful | rfl
      · exact hw.harmless hheedful
      · exact absurd (hjob job' hjob' ▸ hcall) hw.unfinished
  | passes ha hoff =>
      rw [ha.cache, ha.deedsSince_eq]
      exact ⟨rfl, by simp⟩

end

theorem hub_step_of_write (ho : s.Orderly) (hc : s.hub.cancelled = true) {a : Address}
    {value : CoilValue} (hjob : s.job? id = some (.write a value))
    (hrefusing : ∀ stage, s.stage? id = some stage → stage.Refusing) : (s.step id).hub = s.hub := by
  obtain ⟨t, ht, -⟩ := Option.map_eq_some_iff.mp hjob
  have hst : s.stage? id = some t.stage := by simp [stage?, ht]
  have hfit := ho.fits id _ _ hjob hst
  rcases hrefusing _ hst with hheedful | hended
  · cases hstage : t.stage with
    | fresh => exact hub_step_of_declined hjob (hst.trans (congrArg some hstage)) hc
    | awaitingCycle =>
        rw [hstage] at hfit
        cases hfit
    | awaitingTransport cycle =>
        rw [hstage] at hfit
        cases hfit.1
    | _ =>
        rw [hstage] at hheedful
        cases hheedful
  · have hoff : s.enabled id = false := by simp [enabled, ht, hended]
    rw [step_of_not_enabled hoff]

section

variable (hs : s.Reachable) (hc : s.hub.cancelled = true)
include hs hc

theorem awaitingWrite_of_states {n : Nat} {a : Address} {value : CoilValue}
    (hst : (s.states moves n).stage? id = some (.awaitingWrite a value)) :
    s.stage? id = some (.awaitingWrite a value) := by
  induction n with
  | zero => exact hst
  | succ n ih =>
      exact ih (awaitingWrite_of_move (hs.states n).orderly (cancelled_states hc n) hst)

theorem awaitingWrite_states {a : Address} {value : CoilValue}
    (hst : s.stage? id = some (.awaitingWrite a value))
    (hnever : ∀ n, moves n = .step id →
      .sends a value ∉ deedsSince (s.states moves n) (s.states moves (n + 1))) (n : Nat) :
    (s.states moves n).stage? id = some (.awaitingWrite a value) := by
  induction n with
  | zero => exact hst
  | succ n ih =>
      rcases sends_of_move (hs.states n).orderly (cancelled_states hc n) ih with
        hsame | ⟨hm, hmem⟩
      · exact hsame
      · exact absurd hmem (hnever n hm)

theorem not_refused_of_awaitingWrite {a : Address} {value : CoilValue}
    (hst : s.stage? id = some (.awaitingWrite a value)) : ¬Refused s moves id := by
  intro h
  obtain ⟨n, hn⟩ := h.returns
  have hnever : ∀ n, moves n = .step id →
      .sends a value ∉ deedsSince (s.states moves n) (s.states moves (n + 1)) := by
    intro n hm hmem
    cases h.pump n hm _ hmem
  rw [awaitingWrite_states hs hc hst hnever n] at hn
  cases hn

variable (hfair : s.Fair moves)
include hfair

theorem refused_of_heedful {job : Job} {n : Nat} (hjob : (s.states moves n).job? id = some job)
    (hcall : job.isCall = true)
    (hheedful : ∀ stage, s.stage? id = some stage → stage.heedful = true) :
    Refused s moves id := by
  have hsame : ∀ k job', (s.states moves k).job? id = some job' → job' = job :=
    fun k job' hjob' => job?_states_eq hjob hjob'
  have hdrift : ∀ period, job ≠ .drift period := by
    rintro period rfl
    cases hcall
  have hrefusing : ∀ k stage, (s.states moves k).stage? id = some stage → stage.Refusing := by
    intro k
    induction k with
    | zero => exact fun stage hst => .inl (hheedful stage hst)
    | succ k ih =>
        exact fun stage => refusing_of_move (hs.states k).orderly (cancelled_states hc k) (hsame k)
          hcall ih
  have hharmless := fun k => harmless_of_move (hs.states k).orderly (cancelled_states hc k)
    (hsame k) hcall (hrefusing k) (m := moves k)
  refine ⟨?_, fun k hm => (hharmless k hm).2, fun k hm => (hharmless k hm).1, ?_⟩
  · obtain ⟨k, outcome, -, hended⟩ := exists_finished hs hc hfair hjob hdrift
    rcases hrefusing k _ hended with hheedful | heq
    · cases hheedful
    · exact ⟨k, heq ▸ hended⟩
  · intro k a value hm hwrite
    have hstep := hub_step_of_write (hs.states k).orderly (cancelled_states hc k) hwrite
      (hrefusing k)
    rw [states, hm]
    exact hstep

theorem refused_iff {job : Job} {n : Nat} (hjob : (s.states moves n).job? id = some job)
    (hcall : job.isCall = true)
    (hunissued : ∀ stage, s.stage? id = some stage → stage.unissued = true) :
    Refused s moves id ↔ ∀ a value, s.stage? id ≠ some (.awaitingWrite a value) := by
  constructor
  · exact fun h a value hst => not_refused_of_awaitingWrite hs hc hst h
  · intro hwaits
    apply refused_of_heedful hs hc hfair hjob hcall
    intro stage hst
    apply Stage.heedful_of_unissued (hunissued stage hst)
    rintro a value rfl
    exact hwaits a value hst

-- A shutdown does not hold back a write that waits for the transport.
theorem sends_iff {a : Address} {value : CoilValue} :
    (∃ n, moves n = .step id ∧
        .sends a value ∈ deedsSince (s.states moves n) (s.states moves (n + 1))) ↔
      s.stage? id = some (.awaitingWrite a value) := by
  constructor
  · rintro ⟨n, hm, hmem⟩
    obtain ⟨j, b, other, hm', hdeed, hst⟩ :=
      begins_of_move (hs.states n).orderly (cancelled_states hc n) (moves n) hmem rfl
    rw [hm] at hm'
    cases hm'
    cases hdeed
    exact awaitingWrite_of_states hs hc hst
  · intro hst
    by_contra hnever
    push Not at hnever
    obtain ⟨job, hjob⟩ := job?_of_stage? hst
    have hdrift := not_drift_of_wants hs.orderly hjob hst (.inr rfl)
    obtain ⟨k, outcome, -, hended⟩ := exists_finished (n := 0) hs hc hfair hjob hdrift
    rw [awaitingWrite_states hs hc hst hnever k] at hended
    cases hended

-- A shutdown does what is expected of it just if no write waits for the transport at that moment,
-- and whatever waits there, it does so for all other calls.
theorem silenced_iff :
    (Silenced s moves ↔ ∀ id a value, s.stage? id ≠ some (.awaitingWrite a value)) ∧
      ∀ id job n, (s.states moves n).job? id = some job → job.isCall = true →
        (∀ stage, s.stage? id = some stage → stage.unissued = true) →
        (Refused s moves id ↔ ∀ a value, s.stage? id ≠ some (.awaitingWrite a value)) := by
  refine ⟨⟨?_, ?_⟩, fun id job n hjob hcall => refused_iff hs hc hfair hjob hcall⟩
  · intro h id a value hst
    obtain ⟨n, hm, hmem⟩ := (sends_iff hs hc hfair).mpr hst
    cases h.quiet n _ hmem
  · intro hnone
    refine ⟨?_, fun id job n hjob hcall hunissued =>
      (refused_iff hs hc hfair hjob hcall hunissued).mpr (hnone id)⟩
    intro n deed hmem
    cases hbegins : deed.beginsCall with
    | false => rfl
    | true =>
        obtain ⟨j, a, value, -, -, hst⟩ :=
          begins_of_move (hs.states n).orderly (cancelled_states hc n) (moves n) hmem hbegins
        exact absurd (awaitingWrite_of_states hs hc hst) (hnone j a value)

end

-- A refresh reads from a pump that takes its time, and a write has been called.
def busy : System :=
  (fresh {} .f1155 { source := .pump { model := .f1155, readDelay := 50 } }).play
    [.act (.listen "display" [1] []), .spawn .refresh, .step 0, .step 0, .step 0,
      .spawn (.write 1 (.integer 7))]

-- The shutdown comes before the write has looked at the token.
def busyStopped : System := busy.play [.spawn .shutdown, .step 2]

-- The write has looked at it and waits for the transport.
def busyQueued : System := busy.play [.step 1, .spawn .shutdown, .step 2]

theorem silenced_iff_busy : Silenced busyStopped fun n => .step n.unpair.2 := by
  have hs : busyStopped.Reachable := ⟨_, _, _, _, (play_append _ _ _).symm⟩
  refine (silenced_iff hs rfl (fair_turns busyStopped)).1.mpr ?_
  intro id a value hst
  match id with
  | 0 => cases hst
  | 1 => cases hst
  | 2 => cases hst
  | id + 3 => cases hst

-- The write is sent after the shutdown.
theorem shutdown_overtaken :
    ¬∀ (s : System) (moves : Nat → Move), s.Reachable → s.hub.cancelled = true → s.Fair moves →
      Silenced s moves := by
  intro hall
  have hs : busyQueued.Reachable := ⟨_, _, _, _, (play_append _ _ _).symm⟩
  have hst : busyQueued.stage? 1 = some (.awaitingWrite 1 (.integer 7)) := rfl
  have hsilenced := hall busyQueued _ hs rfl (fair_turns busyQueued)
  obtain ⟨n, -, hmem⟩ := (sends_iff hs rfl (fair_turns busyQueued)).mpr hst
  cases hsilenced.quiet n _ hmem

end System

end CoilHub
