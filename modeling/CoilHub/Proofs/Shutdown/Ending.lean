import CoilHub.Proofs.Interleaving.Fairness

namespace CoilHub

namespace Job

-- Whether a job is a single refresh or write.
def isCall : Job → Bool
  | .refresh | .cycle | .write _ _ => true
  | _ => false

theorem not_isCall_of_waits {job : Job} (h : job.waits = true) : ¬job.isCall = true := by
  cases job with
  | updates period => exact Bool.false_ne_true
  | drift period => exact Bool.false_ne_true
  | _ => cases h

end Job

namespace Stage

-- is about to call the pump
def unissued : Stage → Bool
  | .fresh | .awaitingCycle | .awaitingTransport _ | .awaitingWrite _ _ => true
  | _ => false

-- is about to call the pump, and will look first whether everything has been cancelled
def heedful : Stage → Bool
  | .fresh | .awaitingCycle | .awaitingTransport _ => true
  | _ => false

-- A bound on the turns that are left after a shutdown.
def left : Stage → Nat
  | .fresh => 3
  | .awaitingCycle | .awaitingWrite _ _ => 2
  | .awaitingTransport _ | .reading _ _ _ _ | .writing _ _ _ _ | .idle => 1
  | .finished _ => 0

-- has been refused, or is going to be
def Refusing (stage : Stage) : Prop :=
  stage.heedful = true ∨ stage = .finished (.error .cancelled)

theorem heedful_of_unissued {stage : Stage} (h : stage.unissued = true)
    (hwrite : ∀ a value, stage ≠ .awaitingWrite a value) : stage.heedful = true := by
  cases stage with
  | awaitingWrite a value => exact absurd rfl (hwrite a value)
  | fresh => rfl
  | awaitingCycle => rfl
  | awaitingTransport cycle => rfl
  | reading cycle revision attempt due => cases h
  | writing a value revision hadData => cases h
  | idle => cases h
  | finished outcome => cases h

end Stage

namespace Deed

def beginsCall : Deed → Bool
  | .asks _ | .sends _ _ => true
  | _ => false

def reachesPump : Deed → Bool
  | .asks _ | .hears _ _ | .sends _ _ | .receives _ _ => true
  | _ => false

theorem reachesPump_of_beginsCall {deed : Deed} (h : deed.beginsCall = true) :
    deed.reachesPump = true := by
  cases deed <;> first | rfl | cases h

end Deed

namespace System

variable {s s' : System} {id : TaskId}

-- What a turn is like once everything has been cancelled.
structure Winds (s : System) (job : Job) (stage next : Stage) (cycleLock transport : Lock)
    (cache : Cache) (deeds : List Deed) : Prop where
  -- a drift goes on until it is stopped
  closer : (∃ period, job = .drift period) ∨ next.left < stage.left
  cycle : s.cycleLock.Advances cycleLock
  transport : s.transport.Advances transport
  begins : ∀ deed ∈ deeds, deed.beginsCall = true →
    ∃ a value, deed = .sends a value ∧ stage = .awaitingWrite a value
  sends : ∀ a value, stage = .awaitingWrite a value → .sends a value ∈ deeds
  declines : ∀ a value, next ≠ .awaitingWrite a value
  refused : stage.heedful = true → job.isCall = true →
    next.heedful = true ∨ next = .finished (.error .cancelled)
  harmless : stage.heedful = true →
    cache.entries = s.hub.cache.entries ∧ ∀ deed ∈ deeds, deed.reachesPump = false

theorem stageAfter_cancelled (job : Job) :
    ∃ outcome, stageAfter job (.error .cancelled) = .finished outcome := by
  cases job <;> exact ⟨_, rfl⟩

theorem stageAfter_cancelled_of_isCall {job : Job} (h : job.isCall = true) :
    stageAfter job (.error .cancelled) = .finished (.error .cancelled) := by
  cases job <;> first | rfl | cases h

-- A task that has not called the pump and does not do so now.
theorem winds_harmless {job : Job} {stage next : Stage} {cycleLock transport : Lock} {cache : Cache}
    {deeds : List Deed} (hcloser : (∃ period, job = .drift period) ∨ next.left < stage.left)
    (hcycle : s.cycleLock.Advances cycleLock) (htransport : s.transport.Advances transport)
    (hstage : ∀ a value, stage ≠ .awaitingWrite a value)
    (hnext : ∀ a value, next ≠ .awaitingWrite a value)
    (hrefused : job.isCall = true → next.heedful = true ∨ next = .finished (.error .cancelled))
    (hcache : cache.entries = s.hub.cache.entries)
    (hdeeds : ∀ deed ∈ deeds, deed.reachesPump = false) :
    Winds s job stage next cycleLock transport cache deeds where
  closer := hcloser
  cycle := hcycle
  transport := htransport
  begins := by
    intro deed hmem hbegins
    have hreaches := Deed.reachesPump_of_beginsCall hbegins
    rw [hdeeds deed hmem] at hreaches
    cases hreaches
  sends := fun a value heq => absurd heq (hstage a value)
  declines := hnext
  refused := fun _ => hrefused
  harmless := fun _ => ⟨hcache, hdeeds⟩

-- A refresh that is refused or given up.
theorem winds_cancelled {job : Job} {stage : Stage} {cycleLock transport : Lock} {cache : Cache}
    {deeds : List Deed} (hleft : 0 < stage.left) (hcycle : s.cycleLock.Advances cycleLock)
    (htransport : s.transport.Advances transport)
    (hstage : ∀ a value, stage ≠ .awaitingWrite a value)
    (hcache : cache.entries = s.hub.cache.entries)
    (hdeeds : ∀ deed ∈ deeds, deed.reachesPump = false) :
    Winds s job stage (stageAfter job (.error .cancelled)) cycleLock transport cache deeds := by
  obtain ⟨outcome, houtcome⟩ := stageAfter_cancelled job
  refine winds_harmless (.inr ?_) hcycle htransport hstage ?_ ?_ hcache hdeeds
  · rw [houtcome]
    exact hleft
  · rw [houtcome]
    exact nofun
  · exact fun hcall => .inr (stageAfter_cancelled_of_isCall hcall)

-- A move after a shutdown.
inductive Closing (s : System) (m : Move) : Prop
  | turns {j : TaskId} {job : Job} {stage next : Stage} {cycleLock transport : Lock} {cache : Cache}
    {success : Bool} {deeds : List Deed} (hm : m = .step j) (hjob : s.job? j = some job)
    (hst : s.stage? j = some stage)
    (h : Turned j s next cycleLock transport cache success deeds (s.move m))
    (hw : Winds s job stage next cycleLock transport cache deeds)
  -- a task that cannot go on, or no task at all
  | passes (ha : Aside s (s.move m)) (hoff : ∀ j, m = .step j → s.enabled j = false)

-- One case for each rule. A turn that is none is blocked.
theorem Turn.closing (ht : Turn id s (s.move (.step id))) (ho : s.Orderly)
    (hc : s.hub.cancelled = true) : Closing s (.step id) := by
  have hlive : ¬s.hub.cancelled = false := by simp [hc]
  have hsame := s.cycleLock.advances_same
  have htsame := s.transport.advances_same
  have hreleased := s.cycleLock.advances_release
  have htreleased := s.transport.advances_release
  cases ht with
  | stays hs hblocked =>
      rcases hblocked with hoff | ⟨job, stage, hjob, hst, hmisfit⟩
      · refine .passes (by rw [hs]; exact .refl s) ?_
        intro j hj
        cases hj
        exact hoff
      · exact absurd (ho.fits id job stage hjob hst) hmisfit
  | queues hjob hr hst hfrom h =>
      rcases hfrom with rfl | ⟨-, hoff⟩
      · exact .turns rfl hjob hst h (winds_harmless (.inr (by simp [Stage.left]))
          (Lock.advances_request _ _) htsame nofun nofun (fun _ => .inl rfl) rfl (by simp))
      · exact absurd hoff hlive
  | queuesWrite hjob hst hoff h => exact absurd hoff hlive
  | declinesWrite hjob hst hc' h =>
      exact .turns rfl hjob hst h (winds_harmless (.inr (by simp [Stage.left])) hsame htsame nofun
        nofun (fun _ => .inr rfl) rfl (by simp))
  | rests hjob hw hst hfrom h =>
      have hnocall := Job.not_isCall_of_waits hw
      rcases hfrom with rfl | ⟨rfl, hdrift⟩
      · exact .turns rfl hjob hst h (winds_harmless (.inr (by simp [Stage.left])) hsame htsame nofun
          nofun (fun hcall => absurd hcall hnocall) rfl (by simp))
      · exact .turns rfl hjob hst h (winds_harmless (.inl hdrift) hsame htsame nofun nofun
          (fun hcall => absurd hcall hnocall) rfl (by simp))
  | @ends job stage outcome hjob hother hst hfrom h =>
      have hnocall : ¬job.isCall = true := by
        rcases hother with rfl | rfl | hw
        · exact Bool.false_ne_true
        · exact Bool.false_ne_true
        · exact Job.not_isCall_of_waits hw
      have hcloser : (Stage.finished outcome).left < stage.left := by
        rcases hfrom with rfl | rfl <;> simp [Stage.left]
      have hstage : ∀ a value, stage ≠ .awaitingWrite a value := by
        rcases hfrom with rfl | rfl <;> exact nofun
      exact .turns rfl hjob hst h (winds_harmless (.inr hcloser) hsame htsame hstage nofun
        (fun hcall => absurd hcall hnocall) rfl (by simp))
  | declines hjob hst hl hc' h =>
      exact .turns rfl hjob hst h (winds_cancelled (by simp [Stage.left]) hreleased htsame nofun rfl
        (by simp [Deed.reachesPump]))
  | beginsNothing hjob hst hl hoff hp h => exact absurd hoff hlive
  | begins hst hl hoff hp h => exact absurd hoff hlive
  | asks hst hp hl hoff h => exact absurd hoff hlive
  | withdraws hjob hst hp hl hc' hhub h =>
      exact .turns rfl hjob hst h (winds_cancelled (by simp [Stage.left]) hreleased htreleased nofun
        rfl (by simp [Deed.reachesPump]))
  | asksAgain hst hp hoff hresult h => exact absurd hoff hlive
  | settles hst hp hrest hoff hobtains hhub h => exact absurd hoff hlive
  | settlesLast hjob hst hp hoff hobtains hhub h => exact absurd hoff hlive
  | givesUp hjob hst hp hc' hhub h =>
      exact .turns rfl hjob hst h (winds_cancelled (by simp [Stage.left]) hreleased htreleased nofun
        rfl (by simp [Deed.reachesPump]))
  | fails hjob hst hp hoff hresult hfound hhub hlast h => exact absurd hoff hlive
  | @sends a value hst hl h =>
      obtain ⟨job, hjob⟩ := job?_of_stage? hst
      refine .turns rfl hjob hst h ⟨.inr (by simp [Stage.left]), hsame, htsame, ?_, ?_, nofun,
        nofun, nofun⟩
      · intro deed hmem hbegins
        rcases List.mem_pair.mp hmem with rfl | rfl
        · cases hbegins
        · exact ⟨a, value, rfl, rfl⟩
      · rintro b other heq
        cases heq
        simp
  | refused hst h =>
      obtain ⟨job, hjob⟩ := job?_of_stage? hst
      refine .turns rfl hjob hst h ⟨.inr (by simp [Stage.left]), hsame, htreleased, ?_, nofun,
        nofun, nofun, nofun⟩
      simp [Deed.beginsCall]
  | acknowledged hst hobtains hhub h =>
      obtain ⟨job, hjob⟩ := job?_of_stage? hst
      refine .turns rfl hjob hst h ⟨.inr (by simp [Stage.left]), hsame, htreleased, ?_, nofun,
        nofun, nofun, nofun⟩
      intro deed hmem hbegins
      exfalso
      cases hobtains <;> grind [Deed.beginsCall]

theorem Winds.unfinished {job : Job} {outcome : Outcome} {next : Stage}
    {cycleLock transport : Lock} {cache : Cache} {deeds : List Deed}
    (hw : Winds s job (.finished outcome) next cycleLock transport cache deeds) :
    ¬job.isCall = true := by
  rcases hw.closer with ⟨period, rfl⟩ | hlt
  · exact Bool.false_ne_true
  · exact absurd hlt (Nat.not_lt_zero _)

theorem hub_step_of_declined {a : Address} {value : CoilValue}
    (hjob : s.job? id = some (.write a value)) (hst : s.stage? id = some .fresh)
    (hc : s.hub.cancelled = true) : (s.step id).hub = s.hub := by
  rw [step_fresh hjob hst]
  simp [begin, hc, finish, setStage, mapTask]

theorem cancelled_move (s : System) (m : Move) (hc : s.hub.cancelled = true) :
    (s.move m).hub.cancelled = true := by
  rcases move_cases s m with ⟨j, -, ht⟩ | ⟨-, ha⟩
  · rcases ht.turned with heq | ⟨stage, cycleLock, transport, cache, success, deeds, h⟩
    · rw [heq]
      exact hc
    · exact h.cancelled hc
  · exact ha.cancelled hc

theorem closing_move (ho : s.Orderly) (hc : s.hub.cancelled = true) (m : Move) : Closing s m := by
  rcases move_cases s m with ⟨id, rfl, ht⟩ | ⟨hm, ha⟩
  · exact ht.closing ho hc
  · exact .passes ha fun id hid => absurd hid (hm id)

theorem advances_move (ho : s.Orderly) (hc : s.hub.cancelled = true) (m : Move) :
    s.cycleLock.Advances (s.move m).cycleLock ∧ s.transport.Advances (s.move m).transport := by
  cases closing_move ho hc m with
  | turns hm hjob hst h hw =>
      rw [h.cycleLock, h.transport]
      exact ⟨hw.cycle, hw.transport⟩
  | passes ha hoff =>
      rw [ha.cycleLock, ha.transport]
      exact ⟨s.cycleLock.advances_same, s.transport.advances_same⟩

-- How a move changes the place of a task: not at all, or by bringing it closer to its end.
theorem stage?_move (ho : s.Orderly) (hc : s.hub.cancelled = true) {job : Job} {stage : Stage}
    (hjob : s.job? id = some job) (hdrift : ∀ period, job ≠ .drift period)
    (hst : s.stage? id = some stage) (m : Move) :
    (s.move m).stage? id = some stage ∧ (m = .step id → s.enabled id = false) ∨
      ∃ next, (s.move m).stage? id = some next ∧ next.left < stage.left := by
  cases closing_move ho hc m with
  | @turns j job' stage' next _ _ _ _ _ hm hjob' hst' h hw =>
      by_cases hj : id = j
      · subst hj
        rw [hjob] at hjob'
        rw [hst] at hst'
        cases hjob'
        cases hst'
        rcases hw.closer with ⟨period, hperiod⟩ | hlt
        · exact absurd hperiod (hdrift period)
        · exact .inr ⟨next, h.stage, hlt⟩
      · refine .inl ⟨(h.others id hj).trans hst, ?_⟩
        intro heq
        rw [hm] at heq
        injection heq with heq
        exact absurd heq.symm hj
  | passes ha hoff =>
      rcases ha.stages id with hsame | ⟨hnone, -⟩ | ⟨⟨period, hperiod⟩, -⟩
      · exact .inl ⟨hsame.trans hst, hoff id⟩
      · rw [hst] at hnone
        cases hnone
      · rw [hjob] at hperiod
        exact absurd (Option.some.inj hperiod) (hdrift period)

end System

end CoilHub
