import CoilHub.Proofs.Shutdown.Ending

namespace CoilHub

namespace System

variable {s : System} {moves : Nat → Move} {id : TaskId}

-- A task that has come to its last place in a run. Time and again it cannot go on.
structure Rests (s : System) (moves : Nat → Move) (id : TaskId) (stage : Stage) (n : Nat) :
    Prop where
  stays : ∀ k, n ≤ k → (s.states moves k).stage? id = some stage
  blocked : ∀ k, n ≤ k → ∃ m, k ≤ m ∧ (s.states moves m).enabled id = false

-- A task that holds the lock it has asked for can go on after a shutdown.
theorem enabled_of_holder (ho : s.Orderly) (hc : s.hub.cancelled = true) {job : Job} {stage : Stage}
    (hjob : s.job? id = some job) (hdrift : ∀ period, job ≠ .drift period)
    (hst : s.stage? id = some stage) (hunfinished : ∀ outcome, stage ≠ .finished outcome)
    (hcycle : stage = .awaitingCycle → s.cycleLock.holder = some id)
    (htransport : stage.wantsTransport = true → s.transport.holder = some id) :
    s.enabled id = true := by
  have hfit := ho.fits id job stage hjob hst
  obtain ⟨t, ht, rfl⟩ := Option.map_eq_some_iff.mp hst
  have hj : t.job = job := by simpa [job?, ht] using hjob
  simp only [enabled, ht]
  cases hstage : t.stage with
  | fresh => rfl
  | awaitingCycle => exact decide_eq_true (hcycle hstage)
  | awaitingTransport cycle =>
      rw [hstage] at htransport
      exact decide_eq_true (htransport rfl)
  | awaitingWrite a value =>
      rw [hstage] at htransport
      exact decide_eq_true (htransport rfl)
  | reading cycle revision attempt due => simp [hc]
  | writing a value revision hadData => rfl
  | idle =>
      rw [hstage] at hfit
      rw [hj]
      cases job with
      | updates period => simp [hc]
      | drift period => exact absurd rfl (hdrift period)
      | _ => cases hfit
  | finished outcome => exact absurd hstage (hunfinished outcome)

section

variable (hs : s.Reachable) (hc : s.hub.cancelled = true)
include hs hc

omit hs in
theorem cancelled_states (n : Nat) : (s.states moves n).hub.cancelled = true :=
  states_of_le (P := fun t => t.hub.cancelled = true) cancelled_move (Nat.zero_le n) hc

theorem runs_cycleLock : Lock.Runs fun n => (s.states moves n).cycleLock where
  fair := fun n => (hs.states n).orderly.cycle.fair
  once := fun n => (hs.states n).orderly.cycle.once
  advances := fun n => (advances_move (hs.states n).orderly (cancelled_states hc n) (moves n)).1

theorem runs_transport : Lock.Runs fun n => (s.states moves n).transport where
  fair := fun n => (hs.states n).orderly.transport.fair
  once := fun n => (hs.states n).orderly.transport.once
  advances := fun n => (advances_move (hs.states n).orderly (cancelled_states hc n) (moves n)).2

theorem stage?_states_succ {job : Job} {stage : Stage} {n : Nat}
    (hjob : (s.states moves n).job? id = some job) (hdrift : ∀ period, job ≠ .drift period)
    (hst : (s.states moves n).stage? id = some stage) :
    (s.states moves (n + 1)).stage? id = some stage ∧
        (moves n = .step id → (s.states moves n).enabled id = false) ∨
      ∃ next, (s.states moves (n + 1)).stage? id = some next ∧ next.left < stage.left :=
  stage?_move (hs.states n).orderly (cancelled_states hc n) hjob hdrift hst (moves n)

-- The induction is on the turns that are left.
theorem exists_rests (hfair : s.Fair moves) {job : Job} {stage : Stage} {n : Nat}
    (hjob : (s.states moves n).job? id = some job) (hdrift : ∀ period, job ≠ .drift period)
    (hst : (s.states moves n).stage? id = some stage) :
    ∃ last m, n ≤ m ∧ Rests s moves id last m := by
  induction hleft : stage.left using Nat.strongRecOn generalizing n stage with
  | ind left ih =>
      by_cases hgoes : ∃ k next, n ≤ k ∧ (s.states moves k).stage? id = some next ∧
          next.left < stage.left
      · obtain ⟨k, next, hk, hnext, hlt⟩ := hgoes
        obtain ⟨last, m, hm, hrests⟩ := ih next.left (hleft ▸ hlt) (job?_states hk hjob) hnext rfl
        exact ⟨last, m, Nat.le_trans hk hm, hrests⟩
      · have hstays : ∀ k, n ≤ k → (s.states moves k).stage? id = some stage := by
          intro k hk
          induction k, hk using Nat.le_induction with
          | base => exact hst
          | succ k hk ih' =>
              rcases stage?_states_succ hs hc (job?_states hk hjob) hdrift ih' with
                ⟨hsame, -⟩ | ⟨next, hnext, hlt⟩
              · exact hsame
              · exact absurd ⟨k + 1, next, Nat.le_succ_of_le hk, hnext, hlt⟩ hgoes
        refine ⟨stage, n, Nat.le_refl n, hstays, ?_⟩
        intro k hk
        by_contra hblocked
        have hon : ∀ m, k ≤ m → (s.states moves m).enabled id = true := by
          intro m hm
          cases hoff : (s.states moves m).enabled id with
          | true => rfl
          | false => exact absurd ⟨m, hm, hoff⟩ hblocked
        obtain ⟨m, hm, hstep⟩ := hfair id k hon
        have hnm := Nat.le_trans hk hm
        rcases stage?_states_succ hs hc (job?_states hnm hjob) hdrift (hstays m hnm) with
          ⟨-, hoff⟩ | ⟨next, hnext, hlt⟩
        · have hon' := hon m hm
          rw [hoff hstep] at hon'
          cases hon'
        · exact absurd ⟨m + 1, next, Nat.le_succ_of_le hnm, hnext, hlt⟩ hgoes

omit hs hc in
theorem Rests.isAt_eq {stage : Stage} {n k : Nat} (h : Rests s moves id stage n) (hk : n ≤ k)
    (kind : Stage → Bool) : (s.states moves k).isAt kind id = kind stage := by
  rw [isAt, h.stays k hk]
  rfl

-- A task that has obtained the lock that it waits for keeps it as long as it rests.
theorem Rests.holds {stage : Stage} {n : Nat} (h : Rests s moves id stage n)
    (hcycle : stage = .awaitingCycle → ∃ k, n ≤ k ∧ (s.states moves k).cycleLock.holder = some id)
    (htransport : stage.wantsTransport = true →
      ∃ k, n ≤ k ∧ (s.states moves k).transport.holder = some id) :
    ∃ k, n ≤ k ∧ ∀ m, k ≤ m →
      (stage = .awaitingCycle → (s.states moves m).cycleLock.holder = some id) ∧
      (stage.wantsTransport = true → (s.states moves m).transport.holder = some id) := by
  by_cases hawaits : stage = .awaitingCycle
  · obtain ⟨k, hk, hholder⟩ := hcycle hawaits
    refine ⟨k, hk, fun m hm => ⟨fun _ => ?_, ?_⟩⟩
    · refine (runs_cycleLock hs hc).holder_of_le hholder ?_ m hm
      intro j hj
      rw [(hs.states j).orderly.cycle.queue id, h.isAt_eq (Nat.le_trans hk hj), hawaits]
      rfl
    · rw [hawaits]
      exact nofun
  · by_cases hneeds : stage.wantsTransport = true
    · obtain ⟨k, hk, hholder⟩ := htransport hneeds
      refine ⟨k, hk, fun m hm => ⟨fun heq => absurd heq hawaits, fun _ => ?_⟩⟩
      refine (runs_transport hs hc).holder_of_le hholder ?_ m hm
      intro j hj
      rw [(hs.states j).orderly.transport.queue id, h.isAt_eq (Nat.le_trans hk hj)]
      exact hneeds
    · exact ⟨n, Nat.le_refl n, fun m _ =>
        ⟨fun heq => absurd heq hawaits, fun heq => absurd heq hneeds⟩⟩

-- A task rests only at its end, if the locks that it waits for are passed to it.
theorem Rests.finished {job : Job} {stage : Stage} {n : Nat} (h : Rests s moves id stage n)
    (hjob : (s.states moves n).job? id = some job) (hdrift : ∀ period, job ≠ .drift period)
    (hcycle : stage = .awaitingCycle → ∃ k, n ≤ k ∧ (s.states moves k).cycleLock.holder = some id)
    (htransport : stage.wantsTransport = true →
      ∃ k, n ≤ k ∧ (s.states moves k).transport.holder = some id) :
    ∃ outcome, stage = .finished outcome := by
  by_contra hunfinished
  obtain ⟨k, hk, hholds⟩ := h.holds hs hc hcycle htransport
  obtain ⟨m, hm, hoff⟩ := h.blocked k hk
  have hnm := Nat.le_trans hk hm
  have hon := enabled_of_holder (hs.states m).orderly (cancelled_states hc m)
    (job?_states hnm hjob) hdrift (h.stays m hnm) (fun outcome heq => hunfinished ⟨outcome, heq⟩)
    (hholds m hm).1 (hholds m hm).2
  rw [hoff] at hon
  cases hon

variable (hfair : s.Fair moves)
include hfair

theorem exists_rests_of_wants {kind : Stage → Bool}
    (hkind : ∀ stage, kind stage = true → stage.wantsCycle = true ∨ stage.wantsTransport = true)
    {n : Nat} (hat : (s.states moves n).isAt kind id = true) :
    ∃ job stage m, n ≤ m ∧ (s.states moves m).job? id = some job ∧
      (∀ period, job ≠ .drift period) ∧ Rests s moves id stage m := by
  obtain ⟨stage, hst, hwants⟩ := (Option.any_eq_true _ _).mp hat
  obtain ⟨job, hjob⟩ := job?_of_stage? hst
  have hdrift := not_drift_of_wants (hs.states n).orderly hjob hst (hkind stage hwants)
  obtain ⟨last, m, hm, hrests⟩ := exists_rests hs hc hfair hjob hdrift hst
  exact ⟨job, last, m, hm, job?_states hm hjob, hdrift, hrests⟩

theorem leaves_transport (n : Nat) (id : TaskId)
    (hholder : (s.states moves n).transport.holder = some id) :
    ∃ k, n ≤ k ∧ id ∉ (s.states moves k).transport.queue := by
  by_contra hnever
  push Not at hnever
  have hholds := (runs_transport hs hc).holder_of_le hholder hnever
  have hat : ∀ k, n ≤ k → (s.states moves k).isAt Stage.wantsTransport id = true :=
    fun k hk => ((hs.states k).orderly.transport.queue id).mp (hnever k hk)
  obtain ⟨job, stage, m, hm, hjob, hdrift, hrests⟩ :=
    exists_rests_of_wants hs hc hfair (fun _ h => .inr h) (hat n (Nat.le_refl n))
  have hwants : stage.wantsTransport = true := by
    rw [← hrests.isAt_eq (Nat.le_refl m) Stage.wantsTransport]
    exact hat m hm
  have hcycle : stage ≠ .awaitingCycle := by
    rintro rfl
    cases hwants
  obtain ⟨outcome, rfl⟩ := hrests.finished hs hc hjob hdrift (fun heq => absurd heq hcycle)
    fun _ => ⟨m, Nat.le_refl m, hholds m hm⟩
  cases hwants

theorem served_transport {n : Nat} (hid : id ∈ (s.states moves n).transport.queue) :
    ∃ k, n ≤ k ∧ (s.states moves k).transport.holder = some id :=
  (runs_transport hs hc).served (leaves_transport hs hc hfair) hid

theorem Rests.served_transport {stage : Stage} {n : Nat} (h : Rests s moves id stage n)
    (hwants : stage.wantsTransport = true) :
    ∃ k, n ≤ k ∧ (s.states moves k).transport.holder = some id := by
  apply System.served_transport hs hc hfair
  rw [(hs.states n).orderly.transport.queue, h.isAt_eq (Nat.le_refl n)]
  exact hwants

-- Nobody keeps the cycle lock, for nobody waits for the transport forever.
theorem leaves_cycleLock (n : Nat) (id : TaskId)
    (hholder : (s.states moves n).cycleLock.holder = some id) :
    ∃ k, n ≤ k ∧ id ∉ (s.states moves k).cycleLock.queue := by
  by_contra hnever
  push Not at hnever
  have hholds := (runs_cycleLock hs hc).holder_of_le hholder hnever
  have hat : ∀ k, n ≤ k → (s.states moves k).isAt Stage.wantsCycle id = true :=
    fun k hk => ((hs.states k).orderly.cycle.queue id).mp (hnever k hk)
  obtain ⟨job, stage, m, hm, hjob, hdrift, hrests⟩ :=
    exists_rests_of_wants hs hc hfair (fun _ h => .inl h) (hat n (Nat.le_refl n))
  have hwants : stage.wantsCycle = true := by
    rw [← hrests.isAt_eq (Nat.le_refl m) Stage.wantsCycle]
    exact hat m hm
  obtain ⟨outcome, rfl⟩ := hrests.finished hs hc hjob hdrift
    (fun _ => ⟨m, Nat.le_refl m, hholds m hm⟩) (hrests.served_transport hs hc hfair)
  cases hwants

theorem Rests.served_cycleLock {n : Nat} (h : Rests s moves id .awaitingCycle n) :
    ∃ k, n ≤ k ∧ (s.states moves k).cycleLock.holder = some id := by
  apply (runs_cycleLock hs hc).served (leaves_cycleLock hs hc hfair)
  rw [(hs.states n).orderly.cycle.queue, h.isAt_eq (Nat.le_refl n)]
  rfl

-- After a shutdown every task comes to its end.
theorem exists_finished {job : Job} {n : Nat} (hjob : (s.states moves n).job? id = some job)
    (hdrift : ∀ period, job ≠ .drift period) :
    ∃ k outcome, n ≤ k ∧ (s.states moves k).stage? id = some (.finished outcome) := by
  obtain ⟨t, ht, -⟩ := Option.map_eq_some_iff.mp hjob
  have hst : (s.states moves n).stage? id = some t.stage := by simp [stage?, ht]
  obtain ⟨stage, m, hm, hrests⟩ := exists_rests hs hc hfair hjob hdrift hst
  obtain ⟨outcome, rfl⟩ := hrests.finished hs hc (job?_states hm hjob) hdrift
    (fun heq => (heq ▸ hrests).served_cycleLock hs hc hfair) (hrests.served_transport hs hc hfair)
  exact ⟨m, outcome, hm, hrests.stays m (Nat.le_refl m)⟩

end

end System

end CoilHub
