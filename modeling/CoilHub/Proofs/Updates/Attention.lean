import CoilHub.Proofs.Shutdown.Abandonment
import CoilHub.Proofs.Shutdown.Refusals
import CoilHub.Proofs.Updates.Doorbell
import Mathlib.Algebra.BigOperators.Group.Finset.Basic
import Mathlib.Data.Nat.Count

namespace CoilHub

def Stage.isIdle : Stage → Bool
  | .idle => true
  | _ => false

namespace System

variable {s s' m : System} {id j : TaskId} {mv : Move}

-- An update loop begins a cycle.
def BeginsCycle (s : System) (mv : Move) (id : TaskId) : Prop :=
  mv = .step id ∧ s.Listens id ∧ (s.move mv).stage? id = some .awaitingCycle

-- Whether one does so because of a request: its next tick is still to come.
def answersRequest (s : System) : Move → Bool
  | .step id =>
    match s.tasks[id]? with
    | some ⟨.updates _, .idle, nextTick, _⟩ =>
      s.enabled id && !s.hub.cancelled && s.now < nextTick
    | _ => false
  | _ => false

-- The doorbell is in order: update loops that wait are at it.
def Tended (s : System) : Prop := s.hub.doorbell.Tidy s.Listens

theorem stage?_rest {job : Job} (hjob : (m.rest id).job? id = some job) :
    (m.rest id).stage? id = some .idle := by
  rw [job?_rest] at hjob
  obtain ⟨t, ht, -⟩ := Option.map_eq_some_iff.mp hjob
  have hidle : (m.setStage id .idle).stage? id = some .idle := by
    simp [setStage, stage?_mapTask, ht]
  unfold rest
  dsimp only
  split <;> exact hidle

-- A loop that goes to rest waits for a ring only if none is kept.
theorem doorbell_rest {period : Nat} (hjob : (m.rest id).job? id = some (.updates period)) :
    (m.rest id).hub.doorbell = m.hub.doorbell ∨
      m.hub.doorbell.kept = false ∧ (m.rest id).hub.doorbell = m.hub.doorbell.joinedBy id := by
  rw [job?_rest] at hjob
  obtain ⟨t, ht, hupdates⟩ := Option.map_eq_some_iff.mp hjob
  have hidle : (m.setStage id .idle).tasks[id]? = some { t with stage := .idle } := by
    simp [setStage, mapTask, ht]
  unfold rest
  dsimp only
  split
  case isTrue hon => exact .inl rfl
  case isFalse hoff =>
    refine .inr ⟨?_, rfl⟩
    have hunheard := Bool.eq_false_iff.mpr hoff
    simp only [enabled, hidle, hupdates, isRung, Bool.or_eq_false_iff] at hunheard
    exact hunheard.2.1

theorem listens_step (hj : j ≠ id) (h : s.Listens j) : (s.step id).Listens j := by
  rcases (step_turn s id).turned with heq | ⟨stage, cycleLock, transport, cache, success, deeds, ht⟩
  · rwa [heq]
  · obtain ⟨⟨period, hjob⟩, hst⟩ := h
    exact ⟨⟨period, (ht.jobs j).trans hjob⟩, (ht.others j hj).trans hst⟩

theorem Aside.listens (ha : Aside s s') (h : s.Listens j) : s'.Listens j := by
  obtain ⟨⟨period, hjob⟩, hst⟩ := h
  refine ⟨⟨period, ha.jobs j _ hjob⟩, ?_⟩
  rcases ha.stages j with hsame | ⟨hnone, -⟩ | ⟨⟨other, hdrift⟩, -⟩
  · exact hsame.trans hst
  · rw [hst] at hnone
    cases hnone
  · rw [hjob] at hdrift
    cases hdrift

-- Moves that are no steps ring the doorbell as often as somebody asks for a refresh in them.
theorem doorbell_move (hm : ∀ id, mv ≠ .step id) :
    (s.move mv).hub.doorbell = Doorbell.ring^[s.requestsIn mv] s.hub.doorbell := by
  have hsame : (∀ action, mv ≠ .act action) → (s.move mv).hub.doorbell = s.hub.doorbell →
      (s.move mv).hub.doorbell = Doorbell.ring^[s.requestsIn mv] s.hub.doorbell := by
    intro hact hbell
    have hnone : s.requestsIn mv = 0 := by
      unfold requestsIn
      split
      case h_1 action => exact absurd rfl (hact action)
      case h_2 => rw [(move_aside s mv hm).deedsSince_eq, List.map_nil, List.sum_nil]
    rw [hnone, hbell]
    rfl
  cases mv with
  | step id => exact absurd rfl (hm id)
  | act action => exact s.hub.doorbell_act action
  | stop id =>
      refine hsame (by simp) ?_
      simp only [move]
      split <;> rfl
  | _ => exact hsame (by simp) rfl

theorem Subsides.doorbell (h : Subsides id s s') :
    s'.hub.doorbell = bellAfter s s' ∨ (bellAfter s s').kept = false ∧
      s'.hub.doorbell = (bellAfter s s').joinedBy id ∧ s'.Listens id := by
  rcases h with hrings | ⟨m, hrings, rfl, period, hjob⟩
  · exact .inl hrings.bell
  · have hsame : bellAfter s (m.rest id) = bellAfter s m := by
      have hlog : (m.rest id).log = m.log := by
        unfold rest
        dsimp only
        split <;> rfl
      unfold bellAfter deedsSince
      rw [hlog]
    rw [hsame, ← hrings.bell]
    exact (doorbell_rest hjob).imp_right fun ⟨hkept, hjoined⟩ =>
      ⟨hkept, hjoined, ⟨period, hjob⟩, stage?_rest hjob⟩

theorem Tended.step (h : s.Tended) (id : TaskId) : (s.step id).Tended := by
  have hothers : ∀ j, j ≠ id ∧ s.Listens j → (s.step id).Listens j :=
    fun j hj => listens_step hj.1 hj.2
  unfold Tended
  cases step_tolls s id with
  | stays hs hoff => rwa [hs]
  | subsides hsub hother =>
      have hrung : (bellAfter s (s.step id)).Tidy s.Listens := h.iterate _
      have hne : ∀ j, s.Listens j → j ≠ id := fun j hj heq => hother (heq ▸ hj)
      rcases hsub.doorbell with hbell | ⟨hkept, hbell, hlistens⟩
      · rw [hbell]
        exact hrung.adapt fun j _ hj => hothers j ⟨hne j hj, hj⟩
      · rw [hbell]
        refine (hrung.joinedBy hkept hother).adapt fun j _ hj => ?_
        rcases hj with rfl | hj
        · exact hlistens
        · exact hothers j ⟨hne j hj, hj⟩
  | leaves hl hc hbell =>
      rw [hbell]
      exact h.leftBy.adapt fun j _ => hothers j
  | ticks hl ht hc hdue hbell =>
      rw [hbell]
      exact h.leftBy.adapt fun j _ => hothers j
  | answers hl ht hc hdue hrung hbell =>
      rw [hbell]
      exact (Doorbell.Tidy.answeredBy h hrung).adapt fun j _ => hothers j

theorem tended_move (s : System) (mv : Move) (h : s.Tended) : (s.move mv).Tended := by
  rcases move_cases s mv with ⟨id, rfl, -⟩ | ⟨hm, ha⟩
  · exact h.step id
  · unfold Tended
    rw [doorbell_move hm]
    exact (h.iterate _).adapt fun j _ => ha.listens

-- A ring that is outstanding has somebody to hear it, if there is a loop that listens.
theorem Tended.heard (h : s.Tended) (hpos : 0 < s.hub.doorbell.outstanding) (hl : s.Listens id) :
    ∃ j, s.Listens j ∧ s.enabled j = true := by
  have hrung : ∀ {j}, s.Listens j → s.isRung j = true → s.enabled j = true := by
    rintro j ⟨⟨period, hjob⟩, hst⟩ hring
    obtain ⟨t, ht, hidle⟩ := Option.map_eq_some_iff.mp hst
    have hupdates : t.job = .updates period := by simpa [job?, ht] using hjob
    simp [enabled, ht, hidle, hupdates, hring]
  cases hk : s.hub.doorbell.kept with
  | true => exact ⟨id, hl, hrung hl (by simp [isRung, hk])⟩
  | false =>
      have hlength : 0 < s.hub.doorbell.reached.length := by
        simpa [Doorbell.outstanding, hk] using hpos
      obtain ⟨j, hj⟩ := List.exists_mem_of_length_pos hlength
      have hlistens := h.fits j (List.mem_append_right _ hj)
      exact ⟨j, hlistens, hrung hlistens (by simp [isRung, hj])⟩

theorem answersRequest_iff :
    s.answersRequest mv = true ↔ ∃ id t, mv = .step id ∧ s.Listens id ∧ s.tasks[id]? = some t ∧
      s.enabled id = true ∧ s.hub.cancelled = false ∧ s.now < t.nextTick := by
  constructor
  · intro h
    unfold answersRequest at h
    split at h
    case h_1 id =>
      split at h
      case h_1 period nextTick ticks ht =>
        simp only [Bool.and_eq_true, Bool.not_eq_true', decide_eq_true_eq] at h
        have hl : s.Listens id := ⟨⟨period, by simp [job?, ht]⟩, by simp [stage?, ht]⟩
        exact ⟨id, _, rfl, hl, ht, h.1.1, h.1.2, h.2⟩
      case h_2 => cases h
    case h_2 => cases h
  · rintro ⟨id, t, rfl, ⟨⟨period, hjob⟩, hst⟩, ht, he, hc, hdue⟩
    obtain ⟨job, stage, nextTick, ticks⟩ := t
    obtain rfl : job = .updates period := by simpa [job?, ht] using hjob
    obtain rfl : stage = .idle := by simpa [stage?, ht] using hst
    simp only [answersRequest, ht, he, hc]
    simpa using hdue

theorem requestsIn_of_journal (h : (s.step id).journal = s.journal) :
    s.requestsIn (.step id) = 0 := by
  show ((deedsSince s (s.step id)).map Deed.requests).sum = 0
  rw [deedsSince_of_journal_eq h]
  rfl

-- A cycle that is begun because of a request uses up a ring, and only a request brings one more.
theorem outstanding_step_le (s : System) (id : TaskId) :
    (s.step id).hub.doorbell.outstanding + (s.answersRequest (.step id)).toNat ≤
      s.hub.doorbell.outstanding + s.requestsIn (.step id) := by
  have hidle : ∀ {after : System}, after.hub.doorbell.outstanding ≤ s.hub.doorbell.outstanding →
      s.answersRequest (.step id) = false →
      after.hub.doorbell.outstanding + (s.answersRequest (.step id)).toNat ≤
        s.hub.doorbell.outstanding + s.requestsIn (.step id) := by
    intro after hle hnot
    rw [hnot]
    exact Nat.le_trans hle (Nat.le_add_right _ _)
  have hnot : (∀ t, s.tasks[id]? = some t → s.Listens id → s.enabled id = true →
      s.hub.cancelled = false → ¬s.now < t.nextTick) → s.answersRequest (.step id) = false := by
    intro hnone
    refine Bool.eq_false_iff.mpr fun hanswers => ?_
    obtain ⟨other, t, heq, hl, ht, he, hc, hdue⟩ := answersRequest_iff.mp hanswers
    cases heq
    exact hnone t ht hl he hc hdue
  cases step_tolls s id with
  | stays hs hoff =>
      refine hidle (by rw [hs]) (hnot fun t ht hl he => ?_)
      rw [hoff] at he
      cases he
  | subsides hsub hother =>
      rw [hnot fun t ht hl => absurd hl hother]
      have hle : (bellAfter s (s.step id)).outstanding ≤
          s.hub.doorbell.outstanding + s.requestsIn (.step id) :=
        Doorbell.outstanding_iterate_le _
      rcases hsub.doorbell with hbell | ⟨-, hbell, -⟩
      · rw [hbell]
        exact hle
      · rw [hbell, Doorbell.outstanding_joinedBy]
        exact hle
  | leaves hl hc hbell =>
      refine hidle (hbell ▸ Doorbell.outstanding_leftBy_le) (hnot fun t ht hl he hlive => ?_)
      rw [hc] at hlive
      cases hlive
  | ticks hl ht hc hdue hbell =>
      refine hidle (hbell ▸ Doorbell.outstanding_leftBy_le) (hnot fun t' ht' hl he hc => ?_)
      rw [ht] at ht'
      cases ht'
      exact Nat.not_lt_of_le hdue
  | answers hl ht hc hdue hrung hbell =>
      have hused := Doorbell.outstanding_answeredBy hrung
      have hone := Bool.toNat_le (s.answersRequest (.step id))
      rw [hbell]
      omega

-- A ring stays outstanding until a cycle is begun.
theorem outstanding_step_pos
    (h : 0 < s.hub.doorbell.outstanding ∨ 0 < s.requestsIn (.step id)) :
    0 < (s.step id).hub.doorbell.outstanding ∨ s.BeginsCycle (.step id) id := by
  have hsilent : (s.step id).journal = s.journal → 0 < s.hub.doorbell.outstanding :=
    fun hjournal => h.resolve_right (by rw [requestsIn_of_journal hjournal]; exact Nat.lt_irrefl 0)
  cases step_tolls s id with
  | stays hs hoff =>
      left
      rw [hs]
      exact hsilent (by rw [hs])
  | subsides hsub hother =>
      left
      have hpos : 0 < (bellAfter s (s.step id)).outstanding :=
        Doorbell.outstanding_iterate_pos h
      rcases hsub.doorbell with hbell | ⟨-, hbell, -⟩
      · rw [hbell]
        exact hpos
      · rw [hbell, Doorbell.outstanding_joinedBy]
        exact hpos
  | leaves hl hc hbell hjournal =>
      left
      rw [hbell]
      exact Doorbell.outstanding_leftBy_pos (hsilent hjournal)
  | ticks hl ht hc hdue hbell hjournal hst => exact .inr ⟨rfl, hl, hst⟩
  | answers hl ht hc hdue hrung hbell hjournal hst => exact .inr ⟨rfl, hl, hst⟩

theorem outstanding_move_le (s : System) (mv : Move) :
    (s.move mv).hub.doorbell.outstanding + (s.answersRequest mv).toNat ≤
      s.hub.doorbell.outstanding + s.requestsIn mv := by
  rcases move_cases s mv with ⟨id, rfl, -⟩ | ⟨hm, -⟩
  · exact outstanding_step_le s id
  · have hnot : s.answersRequest mv = false := by
      refine Bool.eq_false_iff.mpr fun hanswers => ?_
      obtain ⟨id, t, heq, -⟩ := answersRequest_iff.mp hanswers
      exact hm id heq
    rw [hnot, doorbell_move hm]
    exact Doorbell.outstanding_iterate_le _

theorem outstanding_move_pos (h : 0 < s.hub.doorbell.outstanding ∨ 0 < s.requestsIn mv) :
    0 < (s.move mv).hub.doorbell.outstanding ∨ ∃ id, s.BeginsCycle mv id := by
  rcases move_cases s mv with ⟨id, rfl, -⟩ | ⟨hm, -⟩
  · exact (outstanding_step_pos h).imp_right fun hbegins => ⟨id, hbegins⟩
  · rw [doorbell_move hm]
    exact .inl (Doorbell.outstanding_iterate_pos h)

-- A loop that begins a cycle does nothing else, so nobody asks for a refresh meanwhile.
theorem BeginsCycle.turn (h : s.BeginsCycle mv id) :
    s.enabled id = true ∧ s.hub.cancelled = false ∧ s.requestsIn mv = 0 := by
  obtain ⟨rfl, hl, hbegun⟩ := h
  have hgone : s.step id ≠ s := by
    intro hs
    rw [move, hs, hl.2] at hbegun
    cases hbegun
  have he : s.enabled id = true :=
    Bool.eq_true_of_not_eq_false fun hoff => hgone (step_of_not_enabled hoff)
  cases step_tolls s id with
  | stays hs hoff => exact absurd hs hgone
  | subsides hsub hother => exact absurd hl hother
  | leaves hl' hc hbell hjournal hst =>
      rw [move, hst] at hbegun
      cases hbegun
  | ticks hl' ht hc hdue hbell hjournal => exact ⟨he, hc, requestsIn_of_journal hjournal⟩
  | answers hl' ht hc hdue hrung hbell hjournal => exact ⟨he, hc, requestsIn_of_journal hjournal⟩

-- The cycles that are begun because of a request are exactly those for which no tick is due.
theorem answersRequest_iff_begins :
    s.answersRequest mv = true ↔
      ∃ id t, s.BeginsCycle mv id ∧ s.tasks[id]? = some t ∧ s.now < t.nextTick := by
  constructor
  · intro h
    obtain ⟨id, t, rfl, hl, ht, he, hc, hdue⟩ := answersRequest_iff.mp h
    refine ⟨id, t, ?_, ht, hdue⟩
    cases step_tolls s id with
    | stays hs hoff =>
        rw [hoff] at he
        cases he
    | subsides hsub hother => exact absurd hl hother
    | leaves hl' hc' =>
        rw [hc] at hc'
        cases hc'
    | ticks hl' ht' hc' hdue' =>
        rw [ht] at ht'
        cases ht'
        exact absurd hdue (Nat.not_lt_of_le hdue')
    | answers hl' ht' hc' hdue' hrung hbell hjournal hst => exact ⟨rfl, hl, hst⟩
  · rintro ⟨id, t, ⟨rfl, hl, hbegun⟩, ht, hdue⟩
    obtain ⟨he, hc, -⟩ := BeginsCycle.turn ⟨rfl, hl, hbegun⟩
    exact answersRequest_iff.mpr ⟨id, t, rfl, hl, ht, he, hc, hdue⟩

-- A loop that finds everything cancelled leaves, once it has begun.
theorem stage?_step_of_cancelled (ho : s.Orderly) (hc : s.hub.cancelled = true) {period : Nat}
    {stage : Stage} (hjob : s.job? id = some (.updates period)) (hst : s.stage? id = some stage)
    (he : s.enabled id = true) :
    (s.step id).stage? id = some (.finished (.ok .stopped)) ∨
      stage = .fresh ∧ (s.step id).stage? id = some .idle := by
  have hfit := ho.fits id _ stage hjob hst
  have hgivesUp : stage.wantsCycle = true →
      (s.step id).stage? id = some (.finished (.ok .stopped)) := by
    intro hwants
    obtain ⟨deeds, -, hnext, -⟩ := (step_turn s id).givesUp_of_cancelled ho hc hjob hst hwants he
    exact hnext
  cases stage with
  | fresh =>
      rw [step_fresh hjob hst]
      simp only [begin]
      split
      · exact .inl ((Turned.start hst).finish _).stage
      · have hset := (Turned.start hst).setTimers (fun _ => s.now) Task.ticks
        exact .inr ⟨trivial, hset.rest.stage⟩
  | awaitingCycle => exact .inl (hgivesUp rfl)
  | awaitingTransport cycle => exact .inl (hgivesUp rfl)
  | reading cycle revision attempt due => exact .inl (hgivesUp rfl)
  | awaitingWrite a value => cases hfit
  | writing a value revision hadData => cases hfit
  | idle =>
      have hl : s.Listens id := ⟨⟨period, hjob⟩, hst⟩
      left
      cases step_tolls s id with
      | stays hs hoff =>
          rw [hoff] at he
          cases he
      | subsides hsub hother => exact absurd hl hother
      | leaves hl' hc' hbell hjournal hleft => exact hleft
      | ticks hl' ht hlive =>
          rw [hc] at hlive
          cases hlive
      | answers hl' ht hlive =>
          rw [hc] at hlive
          cases hlive
  | finished outcome =>
      rw [not_enabled_of_finished hst] at he
      cases he

variable {moves : Nat → Move}

-- How the update loops of a run go about requests. When a loop waits and no loop has anything to go
-- on with, every request has been followed by a cycle. The cycles that were begun because of a request
-- are no more than the requests. Once everything has been cancelled, nothing is read any more, and
-- every loop leaves in its next step, apart from one that has not begun yet and needs a step for that.
structure Attentive (s : System) (moves : Nat → Move) : Prop where
  heard : ∀ n k, n < k → 0 < (s.states moves n).requestsIn (moves n) →
    (∃ id, (s.states moves k).Listens id) →
    (∀ id, (s.states moves k).Listens id → (s.states moves k).enabled id = false) →
    ∃ j id, n < j ∧ j < k ∧ (s.states moves j).BeginsCycle (moves j) id
  once : ∀ n, Nat.count (fun k => (s.states moves k).answersRequest (moves k) = true) n ≤
    ∑ k ∈ Finset.range n, (s.states moves k).requestsIn (moves k)
  branch : ∀ n, (s.states moves n).answersRequest (moves n) = true ↔
    ∃ id t, (s.states moves n).BeginsCycle (moves n) id ∧
      (s.states moves n).tasks[id]? = some t ∧ (s.states moves n).now < t.nextTick
  silent : ∀ n a, (s.states moves n).hub.cancelled = true →
    .asks a ∉ deedsSince (s.states moves n) (s.states moves (n + 1))
  leaves : ∀ n id period stage, (s.states moves n).hub.cancelled = true →
    (s.states moves n).job? id = some (.updates period) →
    (s.states moves n).stage? id = some stage → moves n = .step id →
    (s.states moves n).enabled id = true →
    (s.states moves (n + 1)).stage? id = some (.finished (.ok .stopped)) ∨
      stage = .fresh ∧ (s.states moves (n + 1)).stage? id = some .idle
  ends : s.Fair moves → ∀ n id period, (s.states moves n).hub.cancelled = true →
    (s.states moves n).job? id = some (.updates period) →
    ∃ k outcome, n ≤ k ∧ (s.states moves k).stage? id = some (.finished outcome)

theorem outstanding_states_pos {n k : Nat} (hk : n < k)
    (h : 0 < (s.states moves n).requestsIn (moves n)) :
    0 < (s.states moves k).hub.doorbell.outstanding ∨
      ∃ j id, n < j ∧ j < k ∧ (s.states moves j).BeginsCycle (moves j) id := by
  induction k, hk using Nat.le_induction with
  | base =>
      refine (outstanding_move_pos (.inr h)).imp_right ?_
      rintro ⟨id, hbegins⟩
      rw [hbegins.turn.2.2] at h
      cases h
  | succ k hk ih =>
      rcases ih with hpos | ⟨j, id, hj, hlt, hbegins⟩
      · have hmove : 0 < ((s.states moves k).move (moves k)).hub.doorbell.outstanding ∨
            ∃ id, (s.states moves k).BeginsCycle (moves k) id := outstanding_move_pos (.inl hpos)
        rcases hmove with hnext | ⟨id, hbegins⟩
        · exact .inl hnext
        · exact .inr ⟨k, id, hk, Nat.lt_succ_self k, hbegins⟩
      · exact .inr ⟨j, id, hj, Nat.lt_succ_of_lt hlt, hbegins⟩

-- The induction is on the moves made so far. What has been asked for is outstanding or has been dealt
-- with.
theorem count_answers_le (settings : HubConfig) (model : Model) (gateway : Gateway)
    (moves : Nat → Move) (n : Nat) :
    Nat.count (fun k => ((fresh settings model gateway).states moves k).answersRequest (moves k) =
        true) n + ((fresh settings model gateway).states moves n).hub.doorbell.outstanding ≤
      ∑ k ∈ Finset.range n, ((fresh settings model gateway).states moves k).requestsIn (moves k) := by
  induction n with
  | zero => exact Nat.le_refl 0
  | succ n ih =>
      have hmove := outstanding_move_le ((fresh settings model gateway).states moves n) (moves n)
      rw [Nat.count_succ, Finset.sum_range_succ, states]
      cases hanswers : ((fresh settings model gateway).states moves n).answersRequest (moves n) with
      | true =>
          rw [hanswers, Bool.toNat_true] at hmove
          rw [if_pos rfl]
          omega
      | false =>
          rw [hanswers, Bool.toNat_false] at hmove
          rw [if_neg Bool.false_ne_true]
          omega

-- No request is lost, because it stays outstanding until a loop begins a cycle, and none is served twice,
-- because a cycle that is begun on request uses one up.
theorem requests_heeded (settings : HubConfig) (model : Model) (gateway : Gateway)
    (moves : Nat → Move) : Attentive (fresh settings model gateway) moves := by
  have hs : (fresh settings model gateway).Reachable := ⟨settings, model, gateway, [], rfl⟩
  have hfresh : (fresh settings model gateway).Tended := ⟨nofun, List.nodup_nil, nofun⟩
  have htended : ∀ n, ((fresh settings model gateway).states moves n).Tended :=
    fun n => states_of_le tended_move (Nat.zero_le n) hfresh
  refine ⟨?_, ?_, fun n => answersRequest_iff_begins, ?_, ?_, ?_⟩
  · rintro n k hk hrequested ⟨id, hl⟩ hidle
    refine (outstanding_states_pos hk hrequested).resolve_left fun hpos => ?_
    obtain ⟨j, hj, he⟩ := (htended k).heard hpos hl
    rw [hidle j hj] at he
    cases he
  · intro n
    exact Nat.le_of_add_right_le (count_answers_le settings model gateway moves n)
  · intro n a hc hmem
    obtain ⟨id, b, value, -, hdeed, -⟩ :=
      begins_of_move (hs.states n).orderly hc (moves n) hmem rfl
    cases hdeed
  · intro n id period stage hc hjob hst hm he
    rw [states_succ hm]
    exact stage?_step_of_cancelled (hs.states n).orderly hc hjob hst he
  · intro hfair n id period hc hjob
    obtain ⟨k, outcome, -, hfinished⟩ := exists_finished (n := 0) (hs.states n) hc (hfair.later n)
      hjob nofun
    rw [states_add] at hfinished
    exact ⟨n + k, outcome, Nat.le_add_right n k, hfinished⟩

-- A loop is asked for a refresh while its first cycle reads. It begins one more cycle, and then waits.
def askedAmid (n : Nat) : Move :=
  ([.act (.listen "first" [1] []), .spawn (.updates 1000), .step 0, .step 0, .step 0, .step 0,
    .act .requestRefresh, .step 0, .step 0, .step 0, .step 0, .step 0][n]?).getD .forget

theorem requests_heeded_askedAmid :
    let s := fresh {} .f1255 { source := .echo }
    (s.states askedAmid 12).Listens 0 ∧
      (∃ j id, 6 < j ∧ j < 12 ∧ (s.states askedAmid j).BeginsCycle (askedAmid j) id) ∧
      Nat.count (fun k => (s.states askedAmid k).answersRequest (askedAmid k) = true) 12 = 1 ∧
      ∑ k ∈ Finset.range 12, (s.states askedAmid k).requestsIn (askedAmid k) = 1 := by
  intro s
  have hlength : (s.states askedAmid 12).tasks.length = 1 := by decide +kernel
  have hidle : (s.states askedAmid 12).isAt Stage.isIdle 0 = true := by decide +kernel
  have hl : (s.states askedAmid 12).Listens 0 := by
    obtain ⟨stage, hst, hmatches⟩ := (Option.any_eq_true _ _).mp hidle
    have hjob : (s.states askedAmid 2).job? 0 = some (.updates 1000) := rfl
    cases stage with
    | idle => exact ⟨⟨1000, job?_states (by decide) hjob⟩, hst⟩
    | _ => cases hmatches
  have hoff : ∀ id, (s.states askedAmid 12).Listens id →
      (s.states askedAmid 12).enabled id = false := by
    rintro id ⟨-, hst⟩
    obtain ⟨t, ht, -⟩ := Option.map_eq_some_iff.mp hst
    have hlt : id < 1 := hlength ▸ (List.getElem?_eq_some_iff.mp ht).1
    obtain rfl : id = 0 := Nat.lt_one_iff.mp hlt
    decide +kernel
  have hasked : 0 < (s.states askedAmid 6).requestsIn (askedAmid 6) := by decide +kernel
  have hheeded := requests_heeded {} .f1255 { source := .echo } askedAmid
  exact ⟨hl, hheeded.heard 6 12 (by decide) hasked ⟨0, hl⟩ hoff, by decide +kernel,
    by decide +kernel⟩

end System

end CoilHub
