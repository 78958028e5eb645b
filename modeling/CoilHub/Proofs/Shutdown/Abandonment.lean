import CoilHub.Proofs.Cache.Revisions
import CoilHub.Proofs.Interleaving.Service
import CoilHub.Proofs.Shutdown.Completion

namespace CoilHub.System

variable {s s' : System} {moves : Nat → Move} {id : TaskId}

-- What a refresh still does that finds everything cancelled, by where it stands. Nothing but the
-- call of those who have seen an address refreshed comes before it returns.
inductive GivesUp : Stage → List Deed → Prop
  | awaitingCycle : GivesUp .awaitingCycle [.returns (.error .cancelled)]
  | awaitingTransport {cycle : HubCycle} {revision : UInt64} {hub : Hub} :
    GivesUp (.awaitingTransport cycle)
      [.reserves revision, .abandons, .calls hub cycle.waiting, .returns (.error .cancelled)]
  | reading {cycle : HubCycle} {revision : UInt64} {attempt due : Nat} {hub : Hub} :
    GivesUp (.reading cycle revision attempt due)
      [.abandons, .calls hub cycle.waiting, .returns (.error .cancelled)]

-- One case for each rule. Only three of them are about a refresh that finds everything cancelled.
theorem Turn.givesUp_of_cancelled (ht : Turn id s s') (ho : s.Orderly) (hc : s.hub.cancelled = true)
    {job : Job} {stage : Stage} (hjob : s.job? id = some job) (hst : s.stage? id = some stage)
    (hwants : stage.wantsCycle = true) (he : s.enabled id = true) :
    ∃ deeds, GivesUp stage deeds ∧ s'.stage? id = some (stageAfter job (.error .cancelled)) ∧
      s'.deeds id = s.deeds id ++ deeds ∧ s'.hub.cache.entries = s.hub.cache.entries := by
  have hlive : ¬s.hub.cancelled = false := by simp [hc]
  have hstage : ∀ {other}, s.stage? id = some other → other = stage := by
    intro other hother
    rw [hst] at hother
    exact (Option.some.inj hother).symm
  have helsewhere : ∀ {other}, s.stage? id = some other → ¬other.wantsCycle = false := by
    intro other hother hfalse
    rw [hstage hother, hwants] at hfalse
    cases hfalse
  have hsame : ∀ {other}, s.job? id = some other → other = job := by
    intro other hother
    rw [hjob] at hother
    exact (Option.some.inj hother).symm
  cases ht with
  | stays hs hblocked =>
      rcases hblocked with hoff | ⟨other, stage', hjob', hst', hmisfit⟩
      · rw [he] at hoff
        cases hoff
      · exact absurd (ho.fits id other stage' hjob' hst') hmisfit
  | queues hjob' hr hst' hfrom h =>
      rcases hfrom with rfl | ⟨rfl, -⟩ <;> exact absurd rfl (helsewhere hst')
  | queuesWrite hjob' hst' hoff h => exact absurd hoff hlive
  | declinesWrite hjob' hst' hc' h => exact absurd rfl (helsewhere hst')
  | rests hjob' hw hst' hfrom h =>
      rcases hfrom with rfl | ⟨rfl, -⟩ <;> exact absurd rfl (helsewhere hst')
  | ends hjob' hother hst' hfrom h =>
      rcases hfrom with rfl | rfl <;> exact absurd rfl (helsewhere hst')
  | declines hjob' hst' hl hc' h =>
      obtain rfl := hstage hst'
      obtain rfl := hsame hjob'
      exact ⟨_, .awaitingCycle, h.stage, h.deeds_self, congrArg Cache.entries h.cache_eq⟩
  | beginsNothing hjob' hst' hl hoff hp h => exact absurd hoff hlive
  | begins hst' hl hoff hp h => exact absurd hoff hlive
  | asks hst' hp hl hoff h => exact absurd hoff hlive
  | withdraws hjob' hst' hp hl hc' hhub h =>
      obtain rfl := hstage hst'
      obtain rfl := hsame hjob'
      have hentries : s'.hub.cache.entries = s.hub.cache.nextRevision.2.entries :=
        congrArg Cache.entries h.cache_eq
      exact ⟨_, .awaitingTransport, h.stage, h.deeds_self, hentries⟩
  | asksAgain hst' hp hoff hresult h => exact absurd hoff hlive
  | settles hst' hp hrest hoff hobtains hhub h => exact absurd hoff hlive
  | settlesLast hjob' hst' hp hoff hobtains hhub h => exact absurd hoff hlive
  | givesUp hjob' hst' hp hc' hhub h =>
      obtain rfl := hstage hst'
      obtain rfl := hsame hjob'
      exact ⟨_, .reading, h.stage, h.deeds_self, congrArg Cache.entries h.cache_eq⟩
  | fails hjob' hst' hp hoff hresult hfound hhub hlast h => exact absurd hoff hlive
  | sends hst' hl h => exact absurd rfl (helsewhere hst')
  | refused hst' h => exact absurd rfl (helsewhere hst')
  | acknowledged hst' hobtains hhub h => exact absurd rfl (helsewhere hst')

-- What everybody leaves alone once everything has been cancelled, a write apart that is acknowledged.
structure Spares (s s' : System) : Prop where
  success : s'.hub.lastSuccess = s.hub.lastSuccess
  cached : ∀ a e, s.hub.cache.entries.get? a = some e →
    ∃ e', s'.hub.cache.entries.get? a = some e' ∧
      (e' = e ∨ ∃ ack, .receives a (.ok ack) ∈ deedsSince s s')

theorem Spares.of_entries (hsuccess : s'.hub.lastSuccess = s.hub.lastSuccess)
    (hentries : s'.hub.cache.entries = s.hub.cache.entries) : Spares s s' where
  success := hsuccess
  cached := by
    intro a e he
    exact ⟨e, by rw [hentries, he], .inl rfl⟩

theorem Spares.trans {t : System} (h : Spares s s') (h' : Spares s' t)
    (hlog : ∃ deeds, s'.log = s.log ++ deeds) (hlog' : ∃ deeds, t.log = s'.log ++ deeds) :
    Spares s t where
  success := h'.success.trans h.success
  cached := by
    intro a e he
    obtain ⟨deeds, hdeeds⟩ := hlog
    obtain ⟨more, hmore⟩ := hlog'
    have hsince : deedsSince s t = deedsSince s s' ++ deedsSince s' t := by
      rw [deedsSince_of_log_eq hdeeds, deedsSince_of_log_eq hmore]
      exact deedsSince_of_log_eq (by rw [hmore, hdeeds, List.append_assoc])
    obtain ⟨e', he', horigin⟩ := h.cached a e he
    obtain ⟨last, hlast, horigin'⟩ := h'.cached a e' he'
    refine ⟨last, hlast, ?_⟩
    rw [hsince]
    rcases horigin' with rfl | ⟨ack, hmem⟩
    · exact horigin.imp_right fun ⟨ack, hmem⟩ => ⟨ack, List.mem_append_left _ hmem⟩
    · exact .inr ⟨ack, List.mem_append_right _ hmem⟩

theorem Turn.spares (ht : Turn id s s') (hc : s.hub.cancelled = true) : Spares s s' := by
  have hlive : ¬s.hub.cancelled = false := by simp [hc]
  have hquiet : ∀ {stage cycleLock transport cache deeds},
      Turned id s stage cycleLock transport cache s.hub.lastSuccess deeds s' →
        cache.entries = s.hub.cache.entries → Spares s s' := by
    intro stage cycleLock transport cache deeds h hentries
    exact .of_entries h.success_eq (by rw [h.cache_eq, hentries])
  cases ht with
  | stays hs _ => exact hs ▸ .of_entries rfl rfl
  | queues hjob hr hst hfrom h => exact hquiet h rfl
  | queuesWrite hjob hst hoff h => exact hquiet h rfl
  | declinesWrite hjob hst hc' h => exact hquiet h rfl
  | rests hjob hw hst hfrom h => exact hquiet h rfl
  | ends hjob hother hst hfrom h => exact hquiet h rfl
  | declines hjob hst hl hc' h => exact hquiet h rfl
  | beginsNothing hjob hst hl hoff hp h => exact absurd hoff hlive
  | begins hst hl hoff hp h => exact absurd hoff hlive
  | asks hst hp hl hoff h => exact absurd hoff hlive
  | withdraws hjob hst hp hl hc' hhub h => exact hquiet h rfl
  | asksAgain hst hp hoff hresult h => exact absurd hoff hlive
  | settles hst hp hrest hoff hobtains hhub h => exact absurd hoff hlive
  | settlesLast hjob hst hp hoff hobtains hhub h => exact absurd hoff hlive
  | givesUp hjob hst hp hc' hhub h => exact hquiet h rfl
  | fails hjob hst hp hoff hresult hfound hhub hlast h => exact absurd hoff hlive
  | sends hst hl h => exact hquiet h rfl
  | refused hst h => exact hquiet h rfl
  | @acknowledged a value ack revision hadData cache offers stored hub hst hobtains hhub h =>
      cases hobtains with
      | refused hstore => exact hquiet h rfl
      | stored hstore =>
          refine ⟨h.success_eq, fun b e he => ?_⟩
          rw [h.cache_eq, Cache.entries_of_store? hstore, AddressMap.get?_insert]
          by_cases hb : b = a
          · subst hb
            rw [if_pos rfl]
            refine ⟨_, rfl, .inr ⟨ack, ?_⟩⟩
            rw [deedsSince_of_log_eq h.log_eq]
            exact List.mem_append_left _ List.mem_cons_self
          · rw [if_neg hb]
            exact ⟨e, he, .inl rfl⟩

theorem spares_move (hc : s.hub.cancelled = true) (m : Move) : Spares s (s.move m) := by
  rcases move_cases s m with ⟨id, -, ht⟩ | ⟨-, ha⟩
  · exact ht.spares hc
  · exact .of_entries ha.success (by rw [ha.cache])

theorem log_states (n : Nat) : ∃ deeds, (s.states moves n).log = s.log ++ deeds := by
  induction n with
  | zero => exact ⟨[], (List.append_nil _).symm⟩
  | succ n ih =>
      obtain ⟨deeds, hdeeds⟩ := ih
      obtain ⟨more, hmore⟩ := log_move (s.states moves n) (moves n)
      refine ⟨deeds ++ more, ?_⟩
      rw [← List.append_assoc, ← hdeeds]
      exact hmore

theorem spares_states (hc : s.hub.cancelled = true) (n : Nat) : Spares s (s.states moves n) := by
  induction n with
  | zero => exact .of_entries rfl rfl
  | succ n ih =>
      exact ih.trans (spares_move (cancelled_states hc n) (moves n)) (log_states n) (log_move _ _)

-- A refresh that is given up. It waits until its last turn, in which it returns.
structure Abandoned (s : System) (moves : Nat → Move) (id : TaskId) (job : Job) (stage : Stage)
    (first last : Nat) (deeds : List Deed) : Prop where
  turn : moves last = .step id
  waits : ∀ n, first ≤ n → n ≤ last →
    (s.states moves n).stage? id = some stage ∧ (s.states moves n).deeds id = s.deeds id
  gives : GivesUp stage deeds
  cache : (s.states moves (last + 1)).hub.cache.entries = (s.states moves last).hub.cache.entries
  ended : ∀ n, last < n →
    (s.states moves n).stage? id = some (stageAfter job (.error .cancelled)) ∧
      (s.states moves n).deeds id = s.deeds id ++ deeds

section

variable (hs : s.Reachable) (hc : s.hub.cancelled = true) (hfair : s.Fair moves)
include hs hc hfair

theorem exists_abandoned {job : Job} {stage : Stage} {first : Nat}
    (hjob : (s.states moves first).job? id = some job)
    (hst : (s.states moves first).stage? id = some stage) (hwants : stage.wantsCycle = true)
    (hdeeds : (s.states moves first).deeds id = s.deeds id) :
    ∃ last deeds, first ≤ last ∧ Abandoned s moves id job stage first last deeds := by
  have hdrift := not_drift_of_wants (hs.states first).orderly hjob hst (.inl hwants)
  have hgoes : ∃ k, ¬Pauses s moves id first k := by
    obtain ⟨k, outcome, hk, hended⟩ := exists_finished hs hc hfair hjob hdrift
    refine ⟨k, fun hpauses => ?_⟩
    rw [(hpauses.still hk hjob hdrift hst).1] at hended
    cases hended
    cases hwants
  obtain ⟨last, hlast, hpauses, hstep, he⟩ := exists_turn hgoes
  have hwaits : ∀ n, first ≤ n → n ≤ last →
      (s.states moves n).stage? id = some stage ∧ (s.states moves n).deeds id = s.deeds id := by
    intro n hn hle
    obtain ⟨hstage, hsame⟩ := (hpauses.mono hle).still hn hjob hdrift hst
    exact ⟨hstage, hsame.trans hdeeds⟩
  obtain ⟨hstage, hsame⟩ := hwaits last hlast (Nat.le_refl last)
  obtain ⟨deeds, hgives, hended, hmore, hcache⟩ := (step_turn (s.states moves last) id).givesUp_of_cancelled
    (hs.states last).orderly (cancelled_states hc last) (job?_states hlast hjob) hstage hwants he
  rw [← states_succ hstep] at hended hmore hcache
  refine ⟨last, deeds, hlast, hstep, hwaits, hgives, hcache, fun n hn => ?_⟩
  obtain ⟨outcome, houtcome⟩ := stageAfter_cancelled job
  rw [houtcome] at hended ⊢
  have hjob' := job?_states (Nat.le_succ_of_le hlast) hjob
  obtain ⟨hstill, hkept⟩ := (pauses_finished hjob' hdrift hended).still hn hjob' hdrift hended
  exact ⟨hstill, by rw [hkept, hmore, hsame]⟩

end

-- A task that has not made a turn yet, or is not even there.
def Unbegun (s : System) (id : TaskId) : Prop := s.stage? id = none ∨ s.stage? id = some .fresh

-- A refresh begins by asking for the cycle lock.
theorem begin_refresh {job : Job} (hjob : s.job? id = some job)
    (hkind : job = .refresh ∨ job = .cycle) (hst : s.stage? id = some .fresh) :
    (s.step id).stage? id = some .awaitingCycle ∧ (s.step id).deeds id = s.deeds id := by
  have hqueued := (Turned.start hst).requestCycle
  have hstep : s.step id = s.requestCycle id := by
    rw [step_fresh hjob hst]
    rcases hkind with rfl | rfl <;> rfl
  rw [hstep]
  exact ⟨hqueued.stage, hqueued.deeds_self.trans (List.append_nil _)⟩

theorem unbegun_move {m : Move} (hnew : s.Unbegun id)
    (hkind : ∀ job, (s.move m).job? id = some job → job = .refresh ∨ job = .cycle) :
    (s.move m).Unbegun id ∨
      (s.move m).stage? id = some .awaitingCycle ∧ (s.move m).deeds id = s.deeds id := by
  rcases move_cases s m with ⟨j, rfl, ht⟩ | ⟨-, ha⟩
  · by_cases hj : id = j
    · subst hj
      rcases hnew with hnone | hfresh
      · have hoff : s.enabled id = false := by simp_all [stage?, enabled]
        rw [move, step_of_not_enabled hoff]
        exact .inl (.inl hnone)
      · obtain ⟨job, hjob⟩ := job?_of_stage? hfresh
        exact .inr (begin_refresh hjob (hkind job (job?_move hjob (.step id))) hfresh)
    · rcases ht.turned with heq | ⟨stage, cycleLock, transport, cache, success, deeds, h⟩
      · rw [heq]
        exact .inl hnew
      · left
        unfold Unbegun
        rw [h.others id hj]
        exact hnew
  · left
    unfold Unbegun
    rcases ha.stages id with hsame | ⟨-, hfresh⟩ | ⟨⟨period, hdrift⟩, -⟩
    · rw [hsame]
      exact hnew
    · exact .inr hfresh
    · rcases hkind _ (ha.jobs id _ hdrift) with heq | heq <;> cases heq

-- A task that is not new any more has been so until some moment.
theorem exists_begun {n : Nat} (hnew : s.Unbegun id) (hn : ¬(s.states moves n).Unbegun id) :
    ∃ k, ¬(s.states moves (k + 1)).Unbegun id ∧ ∀ j, j ≤ k → (s.states moves j).Unbegun id := by
  classical
  have hbegun : ∃ k, ¬(s.states moves k).Unbegun id := ⟨n, hn⟩
  have hleast := Nat.find_spec hbegun
  have hbefore : ∀ j, j < Nat.find hbegun → (s.states moves j).Unbegun id :=
    fun j hj => not_not.mp (Nat.find_min hbegun hj)
  cases hfind : Nat.find hbegun with
  | zero =>
      rw [hfind] at hleast
      exact absurd hnew hleast
  | succ k =>
      rw [hfind] at hleast hbefore
      exact ⟨k, hleast, fun j hj => hbefore j (Nat.lt_succ_of_le hj)⟩

theorem Reachable.deeds_of_unbegun (hs : s.Reachable) (hnew : s.Unbegun id) : s.deeds id = [] := by
  apply hs.audible.silent
  rcases hnew with hst | hst <;> rw [hst] <;> rfl

-- Once everything has been cancelled, each refresh that waits for a lock or for the answer to a read,
-- whichever attempt and address it is, is given up in its next turn. It returns that it was cancelled,
-- and neither stores what it was reading nor reads anything more. A refresh that has yet to begin does
-- nothing else than return the same. In the meantime no success or failure is recorded, and what is
-- cached stays cached, though a write that is acknowledged may still replace it.
theorem refreshes_abandoned (hs : s.Reachable) (hc : s.hub.cancelled = true) (hfair : s.Fair moves) :
    (∀ id job stage, s.job? id = some job → s.stage? id = some stage → stage.wantsCycle = true →
      ∃ last deeds, Abandoned s moves id job stage 0 last deeds) ∧
    (∀ id job n, (s.states moves n).job? id = some job → job = .refresh ∨ job = .cycle →
      s.Unbegun id → s.deeds id = [] ∧
        ∃ first last, (∀ k, k ≤ first → (s.states moves k).Unbegun id) ∧
          Abandoned s moves id job .awaitingCycle (first + 1) last [.returns (.error .cancelled)]) ∧
    ∀ n, Spares s (s.states moves n) := by
  refine ⟨?_, ?_, spares_states hc⟩
  · intro id job stage hjob hst hwants
    have hjob : (s.states moves 0).job? id = some job := hjob
    obtain ⟨last, deeds, -, h⟩ := exists_abandoned hs hc hfair hjob hst hwants rfl
    exact ⟨last, deeds, h⟩
  · intro id job n hjob hkind hnew
    have hsilent := hs.deeds_of_unbegun hnew
    have hdrift : ∀ period, job ≠ .drift period := by
      rcases hkind with rfl | rfl <;> exact nofun
    obtain ⟨k, outcome, -, hended⟩ := exists_finished hs hc hfair hjob hdrift
    have hbegun : ¬(s.states moves k).Unbegun id := by simp [Unbegun, hended]
    obtain ⟨first, hfirst, hbefore⟩ := exists_begun hnew hbegun
    have hlatest := hbefore first (Nat.le_refl first)
    have hsame : ∀ job', (s.states moves (first + 1)).job? id = some job' → job' = job :=
      fun job' hjob' => job?_states_eq hjob hjob'
    obtain ⟨hst, hdeeds⟩ : (s.states moves (first + 1)).stage? id = some .awaitingCycle ∧
        (s.states moves (first + 1)).deeds id = (s.states moves first).deeds id :=
      (unbegun_move hlatest fun job' hjob' => hsame job' hjob' ▸ hkind).resolve_left hfirst
    rw [(hs.states first).deeds_of_unbegun hlatest, ← hsilent] at hdeeds
    obtain ⟨job', hjob'⟩ := job?_of_stage? hst
    obtain rfl := hsame job' hjob'
    obtain ⟨last, deeds, -, h⟩ := exists_abandoned hs hc hfair hjob' hst rfl hdeeds
    obtain rfl : deeds = [.returns (.error .cancelled)] := by
      cases h.gives
      rfl
    exact ⟨hsilent, first, last, hbefore, h⟩

-- A refresh reads its second address, another one waits for it, and a third one comes after the
-- shutdown.
def stoppedAmid : System :=
  (fresh {} .f1255 { source := .echo }).play [.act (.listen "first" [1, 2] []), .spawn .refresh,
    .spawn .cycle, .step 0, .step 1, .step 0, .step 0, .step 0, .step 0, .spawn .shutdown, .step 2,
    .spawn .cycle]

theorem refreshes_abandoned_stoppedAmid :
    stoppedAmid.hub.cancelled = true ∧ stoppedAmid.hub.cache.values = [(1, .integer 1)] ∧
      (∃ stage last deeds, stage.revision? = some 2 ∧
        Abandoned stoppedAmid (fun n => .step n.unpair.2) 0 .refresh stage 0 last deeds) ∧
      (∃ last deeds,
        Abandoned stoppedAmid (fun n => .step n.unpair.2) 1 .cycle .awaitingCycle 0 last deeds) ∧
      ∃ first last, Abandoned stoppedAmid (fun n => .step n.unpair.2) 3 .cycle .awaitingCycle first
        last [.returns (.error .cancelled)] := by
  have hs : stoppedAmid.Reachable := ⟨_, _, _, _, rfl⟩
  obtain ⟨hsuspended, hlater, -⟩ := refreshes_abandoned hs rfl (fair_turns stoppedAmid)
  obtain ⟨stage, hst, hrevision, hwants⟩ : ∃ stage, stoppedAmid.stage? 0 = some stage ∧
      stage.revision? = some 2 ∧ stage.wantsCycle = true := ⟨_, rfl, rfl, rfl⟩
  obtain ⟨last, deeds, hreading⟩ := hsuspended 0 .refresh stage rfl hst hwants
  obtain ⟨-, first, last', -, hnew⟩ := hlater 3 .cycle 0 rfl (.inr rfl) (.inr rfl)
  exact ⟨rfl, rfl, ⟨stage, last, deeds, hrevision, hreading⟩,
    hsuspended 1 .cycle .awaitingCycle rfl rfl rfl, first + 1, last', hnew⟩

end CoilHub.System
