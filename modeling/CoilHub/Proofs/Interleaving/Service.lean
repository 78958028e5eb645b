import CoilHub.Proofs.Interleaving.Clock
import CoilHub.Proofs.Interleaving.Fairness
import CoilHub.Proofs.Interleaving.Phases
import CoilHub.Proofs.Refresh.Attempts
import Mathlib.Data.Nat.Find

namespace CoilHub

-- A bound on the turns that a task makes while it keeps the transport, if there are at most `limit`
-- attempts at a read.
def Stage.hold (limit : Nat) : Stage → Nat
  | .awaitingTransport _ => limit + 1
  | .reading _ _ attempt _ => limit - attempt
  | .awaitingWrite _ _ => 1
  | _ => 0

namespace System

variable {s s' : System} {id h : TaskId}

-- A task to which it is not its turn, or that cannot go on.
theorem still_move {job : Job} {stage : Stage} {m : Move} (hjob : s.job? id = some job)
    (hdrift : ∀ period, job ≠ .drift period) (hst : s.stage? id = some stage)
    (hm : m = .step id → s.enabled id = false) :
    (s.move m).stage? id = some stage ∧ (s.move m).deeds id = s.deeds id := by
  rcases move_cases s m with ⟨j, hstep, ht⟩ | ⟨-, ha⟩
  · by_cases hj : id = j
    · rw [← hj] at hstep
      have hsame : s.move m = s := by
        rw [hstep]
        exact step_of_not_enabled (hm hstep)
      rw [hsame]
      exact ⟨hst, rfl⟩
    · rcases ht.turned with heq | ⟨next, cycleLock, transport, cache, success, deeds, hturned⟩
      · rw [heq]
        exact ⟨hst, rfl⟩
      · exact ⟨(hturned.others id hj).trans hst, hturned.deeds_other hj⟩
  · have hdeeds : (s.move m).deeds id = s.deeds id := by
      unfold deeds
      rw [ha.journal]
    rcases ha.stages id with hsame | ⟨hnone, -⟩ | ⟨⟨period, hperiod⟩, -⟩
    · exact ⟨hsame.trans hst, hdeeds⟩
    · rw [hst] at hnone
      cases hnone
    · rw [hjob] at hperiod
      exact absurd (Option.some.inj hperiod) (hdrift period)

-- Whoever does not hold the transport can ask for it at most.
theorem Turn.without_transport (ht : Turn id s s') (ho : s.Orderly)
    (hl : s.transport.holder ≠ some id) :
    s'.hub.cache = s.hub.cache ∧
      (s'.transport = s.transport ∨ s'.transport = s.transport.request id) := by
  cases ht with
  | stays hs _ => exact hs ▸ ⟨rfl, .inl rfl⟩
  | queues hjob hr hst hfrom h => exact ⟨h.cache_eq, .inl h.transport⟩
  | queuesWrite hjob hst hc h => exact ⟨h.cache_eq, .inr h.transport⟩
  | declinesWrite hjob hst hc h => exact ⟨h.cache_eq, .inl h.transport⟩
  | rests hjob hw hst hfrom h => exact ⟨h.cache_eq, .inl h.transport⟩
  | ends hjob hother hst hfrom h => exact ⟨h.cache_eq, .inl h.transport⟩
  | declines hjob hst hl' hc h => exact ⟨h.cache_eq, .inl h.transport⟩
  | beginsNothing hjob hst hl' hc hp h => exact ⟨h.cache_eq, .inl h.transport⟩
  | begins hst hl' hc hp h => exact ⟨h.cache_eq, .inr h.transport⟩
  | asks hst hp hl' hc h => exact absurd hl' hl
  | withdraws hjob hst hp hl' hc hhub h => exact absurd hl' hl
  | asksAgain hst hp hc hresult h => exact absurd (ho.holder_of_reading hst).2 hl
  | settles hst hp hrest hc hobtains hhub h => exact absurd (ho.holder_of_reading hst).2 hl
  | settlesLast hjob hst hp hc hobtains hhub h => exact absurd (ho.holder_of_reading hst).2 hl
  | givesUp hjob hst hp hc hhub h => exact absurd (ho.holder_of_reading hst).2 hl
  | fails hjob hst hp hc hresult hfound hhub hlast h =>
      exact absurd (ho.holder_of_reading hst).2 hl
  | sends hst hl' h => exact absurd hl' hl
  | refused hst h => exact absurd (ho.holder_of_writing hst) hl
  | acknowledged hst hobtains hhub h => exact absurd (ho.holder_of_writing hst) hl

-- Whoever holds it and goes on calls the pump, once or once more, or passes it on. A refresh that
-- passes it on may ask for it again.
theorem Turn.with_transport (ht : Turn id s s') {stage : Stage} (hst : s.stage? id = some stage)
    (hwants : stage.wantsTransport = true) (he : s.enabled id = true) (ho : s.Orderly) :
    (∃ next, s'.stage? id = some next ∧ next.hasTransport = true ∧ s'.transport = s.transport ∧
        next.hold (Retry.limit s.hub.settings.readRetries) <
          stage.hold (Retry.limit s.hub.settings.readRetries)) ∨
      s'.transport = s.transport.release ∨
      s'.transport = s.transport.release.request id ∧
        ∃ cycle, s'.stage? id = some (.awaitingTransport cycle) := by
  have hstage : ∀ {other}, s.stage? id = some other → other = stage := by
    intro other hother
    rw [hst] at hother
    exact (Option.some.inj hother).symm
  have hquiet : ∀ {other}, s.stage? id = some other → ¬other.wantsTransport = false := by
    intro other hother hfalse
    rw [hstage hother, hwants] at hfalse
    cases hfalse
  cases ht with
  | stays hs hblocked =>
      rcases hblocked with hoff | ⟨job, other, hjob, hother, hmisfit⟩
      · rw [he] at hoff
        cases hoff
      · exact absurd (ho.fits id job other hjob hother) hmisfit
  | queues hjob hr hst' hfrom h =>
      rcases hfrom with rfl | ⟨rfl, -⟩ <;> exact absurd rfl (hquiet hst')
  | queuesWrite hjob hst' hc h => exact absurd rfl (hquiet hst')
  | declinesWrite hjob hst' hc h => exact absurd rfl (hquiet hst')
  | rests hjob hw hst' hfrom h =>
      rcases hfrom with rfl | ⟨rfl, -⟩ <;> exact absurd rfl (hquiet hst')
  | ends hjob hother hst' hfrom h =>
      rcases hfrom with rfl | rfl <;> exact absurd rfl (hquiet hst')
  | declines hjob hst' hl hc h => exact absurd rfl (hquiet hst')
  | beginsNothing hjob hst' hl hc hp h => exact absurd rfl (hquiet hst')
  | begins hst' hl hc hp h => exact absurd rfl (hquiet hst')
  | asks hst' hp hl hc h =>
      obtain rfl := hstage hst'
      refine .inl ⟨_, h.stage, rfl, h.transport, ?_⟩
      simp only [Stage.hold]
      omega
  | withdraws hjob hst' hp hl hc hhub h => exact .inr (.inl h.transport)
  | asksAgain hst' hp hc hresult h =>
      obtain rfl := hstage hst'
      have hleft := (transient_of_conclude? hresult).1
      refine .inl ⟨_, h.stage, rfl, h.transport, ?_⟩
      simp only [Stage.hold]
      omega
  | settles hst' hp hrest hc hobtains hhub h => exact .inr (.inr ⟨h.transport, _, h.stage⟩)
  | settlesLast hjob hst' hp hc hobtains hhub h => exact .inr (.inl h.transport)
  | givesUp hjob hst' hp hc hhub h => exact .inr (.inl h.transport)
  | fails hjob hst' hp hc hresult hfound hhub hlast h => exact .inr (.inl h.transport)
  | sends hst' hl h =>
      obtain rfl := hstage hst'
      exact .inl ⟨_, h.stage, rfl, h.transport, Nat.zero_lt_one⟩
  | refused hst' h => exact .inr (.inl h.transport)
  | acknowledged hst' hobtains hhub h => exact .inr (.inl h.transport)

-- While the holder of the transport does not go on, others can only queue behind it.
theorem Orderly.meanwhile (ho : s.Orderly) (hl : s.transport.holder = some h) (m : Move)
    (hm : m = .step h → s.enabled h = false) :
    (s.move m).hub.cache = s.hub.cache ∧
      ∃ more, (s.move m).transport.queue = s.transport.queue ++ more := by
  rcases move_cases s m with ⟨j, hstep, ht⟩ | ⟨-, ha⟩
  · by_cases hj : j = h
    · rw [hj] at hstep
      have hsame : s.move m = s := by
        rw [hstep]
        exact step_of_not_enabled (hm hstep)
      rw [hsame]
      exact ⟨rfl, [], (List.append_nil _).symm⟩
    · have hother : s.transport.holder ≠ some j := by
        rw [hl]
        exact fun heq => hj (Option.some.inj heq).symm
      obtain ⟨hcache, hsame | hrequest⟩ := ht.without_transport ho hother
      · exact ⟨hcache, [], by rw [hsame, List.append_nil]⟩
      · exact ⟨hcache, [j], by rw [hrequest, Lock.queue_request ho.transport.fair]⟩
  · exact ⟨ha.cache, [], by rw [ha.transport, List.append_nil]⟩

variable {moves : Nat → Move}

-- Time does not come to a stop.
def Passes (s : System) (moves : Nat → Move) : Prop := ∀ time, ∃ n, time ≤ (s.states moves n).now

theorem passes_led {m : Move} (h : (s.move m).Passes moves) : s.Passes (led m moves) := by
  intro time
  obtain ⟨n, hn⟩ := h time
  exact ⟨n + 1, by rwa [states_led]⟩

theorem now_states_le {n k : Nat} (hk : n ≤ k) :
    (s.states moves n).now ≤ (s.states moves k).now :=
  states_of_le (P := fun t => (s.states moves n).now ≤ t.now)
    (fun t m hle => Nat.le_trans hle (t.now_le_move m)) hk (Nat.le_refl _)

-- A task that makes no turn from one moment to another.
def Pauses (s : System) (moves : Nat → Move) (id : TaskId) (n k : Nat) : Prop :=
  ∀ j, n ≤ j → j < k → moves j = .step id → (s.states moves j).enabled id = false

theorem Pauses.mono {n k k' : Nat} (hp : Pauses s moves id n k') (hk : k ≤ k') :
    Pauses s moves id n k :=
  fun j hj hlt => hp j hj (Nat.lt_of_lt_of_le hlt hk)

theorem Pauses.still {job : Job} {stage : Stage} {n k : Nat} (hp : Pauses s moves id n k)
    (hk : n ≤ k) (hjob : (s.states moves n).job? id = some job)
    (hdrift : ∀ period, job ≠ .drift period)
    (hst : (s.states moves n).stage? id = some stage) :
    (s.states moves k).stage? id = some stage ∧
      (s.states moves k).deeds id = (s.states moves n).deeds id := by
  induction k, hk using Nat.le_induction with
  | base => exact ⟨hst, rfl⟩
  | succ k hk ih =>
      obtain ⟨hstage, hdeeds⟩ := ih (hp.mono (Nat.le_succ k))
      have hnext := still_move (job?_states hk hjob) hdrift hstage
        (hp k hk (Nat.lt_succ_self k))
      exact ⟨hnext.1, hnext.2.trans hdeeds⟩

theorem not_enabled_of_finished {outcome : Outcome} (hst : s.stage? id = some (.finished outcome)) :
    s.enabled id = false := by
  obtain ⟨t, ht, hstage⟩ := Option.map_eq_some_iff.mp hst
  simp [enabled, ht, hstage]

-- A task that is finished makes no turn any more.
theorem pauses_finished {job : Job} {outcome : Outcome} {n k : Nat}
    (hjob : (s.states moves n).job? id = some job) (hdrift : ∀ period, job ≠ .drift period)
    (hst : (s.states moves n).stage? id = some (.finished outcome)) : Pauses s moves id n k := by
  intro j hj _ _
  have hstays := states_of_le (P := fun t => t.job? id = some job ∧
      t.stage? id = some (.finished outcome))
    (fun t m h => ⟨job?_move h.1 m,
      (still_move h.1 hdrift h.2 fun _ => not_enabled_of_finished h.2).1⟩) hj ⟨hjob, hst⟩
  exact not_enabled_of_finished hstays.2

theorem states_succ {n : Nat} (hstep : moves n = .step id) :
    s.states moves (n + 1) = (s.states moves n).step id := by
  rw [states, hstep]
  rfl

-- There is a first turn after any moment after which there is one.
theorem exists_turn {n : Nat} (hgoes : ∃ k, ¬Pauses s moves id n k) :
    ∃ k, n ≤ k ∧ Pauses s moves id n k ∧ moves k = .step id ∧
      (s.states moves k).enabled id = true := by
  classical
  obtain ⟨k, hk⟩ := hgoes
  unfold Pauses at hk
  push Not at hk
  have hturn : ∃ j, n ≤ j ∧ moves j = .step id ∧ (s.states moves j).enabled id = true := by
    obtain ⟨j, hj, -, hstep, he⟩ := hk
    exact ⟨j, hj, hstep, by simpa using he⟩
  obtain ⟨hj, hstep, he⟩ := Nat.find_spec hturn
  refine ⟨Nat.find hturn, hj, ?_, hstep, he⟩
  intro i hi hlt hm
  cases hoff : (s.states moves i).enabled id with
  | false => rfl
  | true => exact absurd ⟨hi, hm, hoff⟩ (Nat.find_min hturn hlt)

theorem settings_move (s : System) (m : Move) : (s.move m).hub.settings = s.hub.settings := by
  rcases move_cases s m with ⟨j, -, ht⟩ | ⟨-, ha⟩
  · rcases ht.turned with heq | ⟨stage, cycleLock, transport, cache, success, deeds, hturned⟩
    · rw [heq]
    · exact hturned.hub.settings
  · exact ha.settings

theorem settings_states (n : Nat) : (s.states moves n).hub.settings = s.hub.settings := by
  induction n with
  | zero => rfl
  | succ n ih => exact (settings_move _ _).trans ih

theorem Orderly.stage_of_holder (ho : s.Orderly) (hl : s.transport.holder = some id) :
    ∃ stage, s.stage? id = some stage ∧ stage.wantsTransport = true := by
  have hwants : s.isAt Stage.wantsTransport id = true := by
    rw [← ho.transport.queue id, Lock.Serves.queue_of_holder hl]
    exact List.mem_cons_self
  exact (Option.any_eq_true _ _).mp hwants

section

variable (hs : s.Reachable)
include hs

-- As long as the holder of the transport pauses, it stays the holder, what is cached stays, and those
-- who come queue behind the others.
theorem Pauses.holds {n k : Nat} (hp : Pauses s moves h n k) (hk : n ≤ k)
    (hl : (s.states moves n).transport.holder = some h) :
    (s.states moves k).transport.holder = some h ∧
      (s.states moves k).hub.cache = (s.states moves n).hub.cache ∧
      ∃ more, (s.states moves k).transport.queue = (s.states moves n).transport.queue ++ more := by
  induction k, hk using Nat.le_induction with
  | base => exact ⟨hl, rfl, [], (List.append_nil _).symm⟩
  | succ k hk ih =>
      obtain ⟨hholder, hcache, more, hqueue⟩ := ih (hp.mono (Nat.le_succ k))
      obtain ⟨hcache', others, hqueue'⟩ := (hs.states k).orderly.meanwhile hholder (moves k)
        (hp k hk (Nat.lt_succ_self k))
      have hlater : (s.states moves (k + 1)).transport.queue =
          (s.states moves n).transport.queue ++ (more ++ others) := by
        rw [← List.append_assoc, ← hqueue]
        exact hqueue'
      refine ⟨?_, hcache'.trans hcache, _, hlater⟩
      rw [Lock.holder_eq (hs.states (k + 1)).orderly.transport.fair, hlater,
        Lock.Serves.queue_of_holder hl]
      rfl

variable (hfair : s.Fair moves) (htime : s.Passes moves)
include hfair htime

-- The holder of the transport can go on, at once or when its read is due, so it does.
theorem holder_goes_on {n : Nat} (hl : (s.states moves n).transport.holder = some h) :
    ∃ k, ¬Pauses s moves h n k := by
  by_contra hnever
  push Not at hnever
  obtain ⟨stage, hst, hwants⟩ := (hs.states n).orderly.stage_of_holder hl
  obtain ⟨job, hjob⟩ := job?_of_stage? hst
  have hdrift := not_drift_of_wants (hs.states n).orderly hjob hst (.inr hwants)
  have hstays : ∀ k, n ≤ k → (s.states moves k).stage? h = some stage :=
    fun k hk => ((hnever k).still hk hjob hdrift hst).1
  have hcan : ∀ k, n ≤ k →
      (∀ cycle revision attempt due, stage = .reading cycle revision attempt due →
        due ≤ (s.states moves k).now) → (s.states moves k).enabled h = true := by
    intro k hk hdue
    have hholder := ((hnever k).holds hs hk hl).1
    obtain ⟨t, ht, rfl⟩ := Option.map_eq_some_iff.mp (hstays k hk)
    simp only [enabled, ht]
    cases hstage : t.stage with
    | awaitingTransport cycle => exact decide_eq_true hholder
    | awaitingWrite a value => exact decide_eq_true hholder
    | reading cycle revision attempt due => simp [hdue cycle revision attempt due hstage]
    | writing a value revision hadData => rfl
    | _ => simp [hstage, Stage.wantsTransport] at hwants
  obtain ⟨first, hn, hon⟩ : ∃ first, n ≤ first ∧ ∀ k, first ≤ k →
      (s.states moves k).enabled h = true := by
    cases stage with
    | reading cycle revision attempt due =>
        obtain ⟨first, hfirst⟩ := htime due
        refine ⟨max n first, Nat.le_max_left n first, fun k hk => ?_⟩
        refine hcan k (Nat.le_trans (Nat.le_max_left n first) hk) ?_
        intro cycle' revision' attempt' due' heq
        cases heq
        exact Nat.le_trans hfirst (now_states_le (Nat.le_trans (Nat.le_max_right n first) hk))
    | _ => exact ⟨n, Nat.le_refl n, fun k hk => hcan k hk (by simp)⟩
  obtain ⟨k, hk, hstep⟩ := hfair h first hon
  have hoff := hnever (k + 1) k (Nat.le_trans hn hk) (Nat.lt_succ_self k) hstep
  rw [hon k hk] at hoff
  cases hoff

-- A task that holds the transport from one moment to another, at which it passes it on. Until then
-- it is where it was or has called the pump, and those who come queue behind the others.
structure PassesOn (s : System) (moves : Nat → Move) (h : TaskId) (n k : Nat) : Prop where
  later : n ≤ k
  holds : ∀ j, n ≤ j → j ≤ k → (s.states moves j).transport.holder = some h ∧
    ((s.states moves j).stage? h = (s.states moves n).stage? h ∨
      (s.states moves j).isAt Stage.hasTransport h = true)
  queue : ∃ more, (s.states moves k).transport.queue = (s.states moves n).transport.queue ++ more
  turn : moves k = .step h
  leaves : (s.states moves (k + 1)).transport = (s.states moves k).transport.release ∨
    (s.states moves (k + 1)).transport = (s.states moves k).transport.release.request h ∧
      ∃ cycle, (s.states moves (k + 1)).stage? h = some (.awaitingTransport cycle)

-- The induction is on the turns that the holder makes before it passes the transport on.
theorem passes_on {n : Nat} (hl : (s.states moves n).transport.holder = some h) :
    ∃ k, PassesOn s moves h n k := by
  obtain ⟨stage, hst, hwants⟩ := (hs.states n).orderly.stage_of_holder hl
  induction hhold : stage.hold (Retry.limit s.hub.settings.readRetries)
      using Nat.strongRecOn generalizing n stage with
  | ind hold ih =>
      obtain ⟨job, hjob⟩ := job?_of_stage? hst
      have hdrift := not_drift_of_wants (hs.states n).orderly hjob hst (.inr hwants)
      obtain ⟨k, hk, hpauses, hstep, he⟩ := exists_turn (holder_goes_on hs hfair htime hl)
      have hheld : ∀ j, n ≤ j → j ≤ k → (s.states moves j).transport.holder = some h ∧
          (s.states moves j).stage? h = (s.states moves n).stage? h :=
        fun j hj hle => ⟨((hpauses.mono hle).holds hs hj hl).1,
          ((hpauses.mono hle).still hj hjob hdrift hst).1.trans hst.symm⟩
      obtain ⟨-, -, more, hqueue⟩ := hpauses.holds hs hk hl
      have hturn := (step_turn (s.states moves k) h).with_transport
        ((hheld k hk (Nat.le_refl k)).2.trans hst) hwants he (hs.states k).orderly
      rw [← states_succ hstep, settings_states] at hturn
      rcases hturn with ⟨next, hnext, hhas, hsame, hlt⟩ | hleaves
      · have hholder : (s.states moves (k + 1)).transport.holder = some h := by
          rw [hsame]
          exact (hheld k hk (Nat.le_refl k)).1
        obtain ⟨next', hnext', hwants'⟩ := (hs.states (k + 1)).orderly.stage_of_holder hholder
        rw [hnext] at hnext'
        cases hnext'
        have hat : (s.states moves (k + 1)).isAt Stage.hasTransport h = true := by
          simp [isAt, hnext, hhas]
        obtain ⟨m, hlater⟩ := ih _ (hhold ▸ hlt) hholder next hnext hwants' rfl
        refine ⟨m, Nat.le_trans (Nat.le_succ_of_le hk) hlater.later, ?_, ?_, hlater.turn,
          hlater.leaves⟩
        · intro j hj hle
          rcases Nat.lt_or_ge k j with hlt' | hge
          · obtain ⟨hholds, hstage⟩ := hlater.holds j hlt' hle
            refine ⟨hholds, .inr (hstage.elim (fun hsame' => ?_) fun hhas' => hhas')⟩
            unfold isAt at hat ⊢
            rwa [hsame']
          · exact ⟨(hheld j hj hge).1, .inl (hheld j hj hge).2⟩
        · obtain ⟨others, hothers⟩ := hlater.queue
          exact ⟨more ++ others, by rw [hothers, hsame, hqueue, List.append_assoc]⟩
      · exact ⟨k, hk, fun j hj hle => (hheld j hj hle).imp_right .inl, ⟨more, hqueue⟩, hstep,
          hleaves⟩

-- Those who wait come closer when the holder passes the transport on.
theorem comes_closer {n : Nat} (hl : (s.states moves n).transport.holder = some h)
    (hid : id ∈ (s.states moves n).transport.queue) (hne : id ≠ h) :
    ∃ k, n ≤ k ∧ id ∈ (s.states moves k).transport.queue ∧
      (s.states moves k).transport.queue.idxOf id <
        (s.states moves n).transport.queue.idxOf id := by
  obtain ⟨k, hpasses⟩ := passes_on hs hfair htime hl
  obtain ⟨more, hqueue⟩ := hpasses.queue
  have hnow := Lock.Serves.queue_of_holder hl
  have hrest : id ∈ (s.states moves n).transport.waiting := by
    rw [hnow] at hid
    exact (List.mem_cons.mp hid).resolve_left hne
  have hfairlock : (s.states moves k).transport.Fair := (hs.states k).orderly.transport.fair
  have hpassed : ∃ others, (s.states moves (k + 1)).transport.queue =
      (s.states moves n).transport.waiting ++ others := by
    have htail : (s.states moves k).transport.release.queue =
        (s.states moves n).transport.waiting ++ more := by
      rw [Lock.queue_release hfairlock, hqueue, hnow]
      rfl
    rcases hpasses.leaves with hrelease | ⟨hrequeue, -⟩
    · exact ⟨more, by rw [hrelease, htail]⟩
    · exact ⟨more ++ [h], by
        rw [hrequeue, Lock.queue_request Lock.fair_release, htail, List.append_assoc]⟩
  obtain ⟨others, hothers⟩ := hpassed
  refine ⟨k + 1, Nat.le_succ_of_le hpasses.later, ?_, ?_⟩
  · rw [hothers]
    exact List.mem_append_left others hrest
  · rw [hothers, hnow, List.idxOf_append_of_mem hrest, List.idxOf_cons_ne _ hne.symm]
    exact Nat.lt_succ_self _

-- The induction is on the place in the queue.
theorem obtains_transport {n : Nat} (hid : id ∈ (s.states moves n).transport.queue) :
    ∃ k, n ≤ k ∧ (s.states moves k).transport.holder = some id := by
  induction hplace : (s.states moves n).transport.queue.idxOf id using Nat.strongRecOn
      generalizing n with
  | ind place ih =>
      obtain ⟨first, hfirst⟩ : ∃ first, (s.states moves n).transport.holder = some first := by
        rw [Lock.holder_eq (hs.states n).orderly.transport.fair]
        obtain ⟨first, rest, hcons⟩ := List.exists_cons_of_ne_nil (List.ne_nil_of_mem hid)
        exact ⟨first, by rw [hcons]; rfl⟩
      by_cases hne : id = first
      · exact ⟨n, Nat.le_refl n, hne ▸ hfirst⟩
      · obtain ⟨k, hk, hmem, hcloser⟩ := comes_closer hs hfair htime hfirst hid hne
        obtain ⟨m, hm, hserved⟩ := ih _ (hplace ▸ hcloser) hmem rfl
        exact ⟨m, Nat.le_trans hk hm, hserved⟩

end

-- A run in which one task comes first and everybody takes turns after that, while time passes.
def rota (first : TaskId) (n : Nat) : Move :=
  if n = 0 then .step first else if n % 2 = 1 then .wait 1 else .step (n / 2).unpair.2

theorem fair_rota (s : System) (first : TaskId) : s.Fair (rota first) := by
  intro id n _
  have hle := Nat.left_le_pair (n + 1) id
  refine ⟨2 * Nat.pair (n + 1) id, by omega, ?_⟩
  have hpos : 2 * Nat.pair (n + 1) id ≠ 0 := by omega
  simp [rota, hpos]

theorem passes_rota (s : System) (first : TaskId) : s.Passes (rota first) := by
  intro time
  induction time with
  | zero => exact ⟨0, Nat.zero_le _⟩
  | succ time ih =>
      obtain ⟨n, hn⟩ := ih
      have hlater : (s.states (rota first) n).now ≤ (s.states (rota first) (2 * n + 1)).now :=
        now_states_le (by omega)
      have hwait : rota first (2 * n + 1) = .wait 1 := by
        unfold rota
        rw [if_neg (by omega), if_pos (by omega)]
      have hnext : (s.states (rota first) (2 * n + 2)).now =
          (s.states (rota first) (2 * n + 1)).now + 1 := by
        rw [states, hwait]
        rfl
      exact ⟨2 * n + 2, by omega⟩

end System

end CoilHub
