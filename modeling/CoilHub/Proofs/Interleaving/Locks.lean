import CoilHub.Proofs.Interleaving.Outside

namespace CoilHub

namespace Lock

-- A lock serves those that want it, one after another, and nobody works under it who does not hold
-- it.
structure Serves (l : Lock) (wants has : TaskId → Bool) : Prop where
  fair : l.Fair
  once : l.queue.Nodup
  queue : ∀ id, id ∈ l.queue ↔ wants id = true
  holder : ∀ id, has id = true → l.holder = some id

namespace Serves

variable {l : Lock} {wants has wants' has' : TaskId → Bool} {id : TaskId} (h : l.Serves wants has)
include h

theorem adapt (hw : ∀ j, wants' j = wants j)
    (hh : ∀ j, has' j = true → has j = true ∨ l.holder = some j) : l.Serves wants' has' where
  fair := h.fair
  once := h.once
  queue := by
    intro j
    rw [h.queue j, hw j]
  holder := fun j hj => (hh j hj).elim (h.holder j) id

theorem request (hid : wants id = false) :
    (l.request id).Serves (fun j => decide (j = id) || wants j) has where
  fair := fair_request id
  once := by
    rw [queue_request h.fair]
    have hnot : id ∉ l.queue := by simp [h.queue id, hid]
    refine List.nodup_append.mpr ⟨h.once, by simp, ?_⟩
    intro a ha b hb heq
    rw [List.mem_singleton.mp hb] at heq
    exact hnot (heq ▸ ha)
  queue := by
    intro j
    rw [queue_request h.fair, List.mem_append, List.mem_singleton, h.queue j]
    simp [or_comm]
  holder := by
    intro j hj
    simp [Lock.request, h.holder j hj]

omit h in
theorem queue_of_holder (hl : l.holder = some id) : l.queue = id :: l.waiting := by
  simp [Lock.queue, hl]

theorem release (hl : l.holder = some id) :
    l.release.Serves (fun j => decide (j ≠ id) && wants j) (fun j => decide (j ≠ id) && has j) where
  fair := fair_release
  once := by
    rw [queue_release h.fair]
    exact h.once.tail
  queue := by
    intro j
    have hq := queue_of_holder hl
    have honce := h.once
    have hwants := h.queue j
    rw [hq] at honce hwants
    rw [queue_release h.fair, hq, List.tail_cons]
    have hnot : id ∉ l.waiting := (List.nodup_cons.mp honce).1
    by_cases hj : j = id
    · simp [hj, hnot]
    · simpa [hj] using hwants
  holder := by
    intro j hj
    simp only [Bool.and_eq_true, decide_eq_true_eq] at hj
    have heq := h.holder j hj.2
    rw [hl] at heq
    exact absurd (Option.some.inj heq).symm hj.1

end Serves

end Lock

namespace Stage

-- has asked for the cycle lock and not given it up
def wantsCycle : Stage → Bool
  | .awaitingCycle | .awaitingTransport _ | .reading _ _ _ _ => true
  | _ => false

def hasCycle : Stage → Bool
  | .awaitingTransport _ | .reading _ _ _ _ => true
  | _ => false

-- has asked for the transport and not given it up
def wantsTransport : Stage → Bool
  | .awaitingTransport _ | .reading _ _ _ _ | .awaitingWrite _ _ | .writing _ _ _ _ => true
  | _ => false

-- a call of the pump is under way
def hasTransport : Stage → Bool
  | .reading _ _ _ _ | .writing _ _ _ _ => true
  | _ => false

end Stage

namespace System

section

variable (job : Job) (result : RefreshResult)

theorem stageAfter_cases :
    (∃ outcome, stageAfter job result = .finished outcome) ∨
      job.waits = true ∧ stageAfter job result = .idle := by
  cases job with
  | updates period =>
      unfold stageAfter
      dsimp only
      split
      · exact .inl ⟨_, rfl⟩
      · exact .inr ⟨rfl, rfl⟩
  | _ => exact .inl ⟨_, rfl⟩

@[simp] theorem wantsCycle_stageAfter : (stageAfter job result).wantsCycle = false := by
  rcases stageAfter_cases job result with ⟨outcome, h⟩ | ⟨-, h⟩ <;> rw [h] <;> rfl

@[simp] theorem hasCycle_stageAfter : (stageAfter job result).hasCycle = false := by
  rcases stageAfter_cases job result with ⟨outcome, h⟩ | ⟨-, h⟩ <;> rw [h] <;> rfl

@[simp] theorem wantsTransport_stageAfter : (stageAfter job result).wantsTransport = false := by
  rcases stageAfter_cases job result with ⟨outcome, h⟩ | ⟨-, h⟩ <;> rw [h] <;> rfl

@[simp] theorem hasTransport_stageAfter : (stageAfter job result).hasTransport = false := by
  rcases stageAfter_cases job result with ⟨outcome, h⟩ | ⟨-, h⟩ <;> rw [h] <;> rfl

theorem fits_stageAfter : (stageAfter job result).Fits job := by
  rcases stageAfter_cases job result with ⟨outcome, h⟩ | ⟨hw, h⟩ <;> rw [h]
  · trivial
  · exact hw

end

def isAt (s : System) (kind : Stage → Bool) (id : TaskId) : Bool := (s.stage? id).any kind

-- What holds in every state of a run.
structure Orderly (s : System) : Prop where
  fits : ∀ id job stage, s.job? id = some job → s.stage? id = some stage → stage.Fits job
  cycle : s.cycleLock.Serves (s.isAt Stage.wantsCycle) (s.isAt Stage.hasCycle)
  transport : s.transport.Serves (s.isAt Stage.wantsTransport) (s.isAt Stage.hasTransport)

theorem orderly_start (hub : Hub) : ({ hub } : System).Orderly := by
  have hserves : ∀ wants has,
      ({} : Lock).Serves (({ hub } : System).isAt wants) (({ hub } : System).isAt has) := by
    intro wants has
    exact ⟨fun _ => rfl, .nil, by simp [Lock.queue, isAt, stage?], by simp [isAt, stage?]⟩
  exact ⟨by simp [job?], hserves _ _, hserves _ _⟩

namespace Turned

variable {id : TaskId} {s s' : System} {stage next : Stage} {cycleLock transport : Lock}
  {cache : Cache} {success : Bool} {deeds : List Deed} {lock : Lock} {wants has : Stage → Bool}
  (h : Turned id s next cycleLock transport cache success deeds s')
  (hst : s.stage? id = some stage) (hg : lock.Serves (s.isAt wants) (s.isAt has))
include h

theorem isAt_eq (kind : Stage → Bool) (j : TaskId) :
    s'.isAt kind j = if j = id then kind next else s.isAt kind j := by
  by_cases hj : j = id
  · simp [hj, isAt, h.stage]
  · simp [hj, isAt, h.others j hj]

theorem isAt_other {kind : Stage → Bool} (hnext : kind next = false) {j : TaskId}
    (hj : s'.isAt kind j = true) : j ≠ id ∧ s.isAt kind j = true := by
  rw [h.isAt_eq] at hj
  by_cases heq : j = id
  · rw [if_pos heq, hnext] at hj
    cases hj
  · rw [if_neg heq] at hj
    exact ⟨heq, hj⟩

include hst hg

theorem serves_same (hw : wants next = wants stage)
    (hh : has next = true → lock.holder = some id) :
    lock.Serves (s'.isAt wants) (s'.isAt has) := by
  apply hg.adapt
  · intro j
    rw [h.isAt_eq]
    by_cases hj : j = id
    · simp [hj, isAt, hst, hw]
    · simp [hj]
  · intro j hhas
    rw [h.isAt_eq] at hhas
    by_cases hj : j = id
    · rw [if_pos hj] at hhas
      exact .inr (hj ▸ hh hhas)
    · rw [if_neg hj] at hhas
      exact .inl hhas

theorem serves_request (hold : wants stage = false) (hnew : wants next = true)
    (hh : has next = false) : (lock.request id).Serves (s'.isAt wants) (s'.isAt has) := by
  have hid : s.isAt wants id = false := by simp [isAt, hst, hold]
  apply (hg.request hid).adapt
  · intro j
    rw [h.isAt_eq]
    by_cases hj : j = id
    · simp [hj, hnew]
    · simp [hj]
  · exact fun j hhas => .inl (h.isAt_other hh hhas).2

omit hst

theorem serves_release (hl : lock.holder = some id) (hnew : wants next = false)
    (hh : has next = false) : lock.release.Serves (s'.isAt wants) (s'.isAt has) := by
  apply (hg.release hl).adapt
  · intro j
    rw [h.isAt_eq]
    by_cases hj : j = id
    · simp [hj, hnew]
    · simp [hj]
  · intro j hhas
    have hother := h.isAt_other hh hhas
    exact .inl (by simp [hother.1, hother.2])

-- A task that gives a lock up and asks for it once more comes last.
theorem serves_requeue (hl : lock.holder = some id) (hnew : wants next = true)
    (hh : has next = false) :
    (lock.release.request id).Serves (s'.isAt wants) (s'.isAt has) := by
  have hfree : (decide (id ≠ id) && s.isAt wants id) = false := by simp
  apply ((hg.release hl).request hfree).adapt
  · intro j
    rw [h.isAt_eq]
    by_cases hj : j = id
    · simp [hj, hnew]
    · simp [hj]
  · intro j hhas
    have hother := h.isAt_other hh hhas
    exact .inl (by simp [hother.1, hother.2])

end Turned

variable {s s' : System} {id : TaskId}

theorem Orderly.fits_turned (ho : s.Orderly) {next : Stage} {cycleLock transport : Lock}
    {cache : Cache} {success : Bool} {deeds : List Deed} {job : Job}
    (h : Turned id s next cycleLock transport cache success deeds s')
    (hjob : s.job? id = some job) (hnext : next.Fits job) (j : TaskId) (job' : Job) (stage : Stage)
    (hj : s'.job? j = some job') (hs : s'.stage? j = some stage) : stage.Fits job' := by
  rw [h.jobs j] at hj
  by_cases hid : j = id
  · subst hid
    rw [h.stage] at hs
    rw [hjob] at hj
    cases hs
    cases hj
    exact hnext
  · rw [h.others j hid] at hs
    exact ho.fits j job' stage hj hs

theorem Orderly.turned (ho : s.Orderly) {next : Stage} {cycleLock transport : Lock} {cache : Cache}
    {success : Bool} {deeds : List Deed} {job : Job}
    (h : Turned id s next cycleLock transport cache success deeds s')
    (hjob : s.job? id = some job) (hnext : next.Fits job)
    (hcycle : cycleLock.Serves (s'.isAt Stage.wantsCycle) (s'.isAt Stage.hasCycle))
    (htransport : transport.Serves (s'.isAt Stage.wantsTransport) (s'.isAt Stage.hasTransport)) :
    s'.Orderly where
  fits := ho.fits_turned h hjob hnext
  cycle := h.cycleLock ▸ hcycle
  transport := h.transport ▸ htransport

theorem job?_of_stage? {stage : Stage} (hst : s.stage? id = some stage) :
    ∃ job, s.job? id = some job := by
  obtain ⟨t, ht, -⟩ := Option.map_eq_some_iff.mp hst
  exact ⟨t.job, by simp [job?, ht]⟩

theorem Orderly.holder_of_reading (ho : s.Orderly) {cycle : HubCycle} {revision : UInt64}
    {attempt due : Nat} (hst : s.stage? id = some (.reading cycle revision attempt due)) :
    s.cycleLock.holder = some id ∧ s.transport.holder = some id :=
  ⟨ho.cycle.holder id (by simp [isAt, hst, Stage.hasCycle]),
    ho.transport.holder id (by simp [isAt, hst, Stage.hasTransport])⟩

theorem Orderly.holder_of_awaitingTransport (ho : s.Orderly) {cycle : HubCycle}
    (hst : s.stage? id = some (.awaitingTransport cycle)) : s.cycleLock.holder = some id :=
  ho.cycle.holder id (by simp [isAt, hst, Stage.hasCycle])

theorem Orderly.holder_of_writing (ho : s.Orderly) {a : Address} {value : CoilValue}
    {revision : UInt64} {hadData : Bool}
    (hst : s.stage? id = some (.writing a value revision hadData)) :
    s.transport.holder = some id :=
  ho.transport.holder id (by simp [isAt, hst, Stage.hasTransport])

theorem not_drift_of_wants (ho : s.Orderly) {job : Job} {stage : Stage}
    (hjob : s.job? id = some job) (hst : s.stage? id = some stage)
    (hwants : stage.wantsCycle = true ∨ stage.wantsTransport = true) (period : Nat) :
    job ≠ .drift period := by
  rintro rfl
  rcases (ho.fits id _ stage hjob hst).of_drift with rfl | rfl | ⟨outcome, rfl⟩ <;>
    rcases hwants with h | h <;> cases h

-- One case for each rule. A rule changes the queue of a lock just as it changes what its task
-- wants.
theorem Orderly.turn (ho : s.Orderly) (ht : Turn id s s') : s'.Orderly := by
  cases ht with
  | stays hs _ => exact hs ▸ ho
  | queues hjob hr hst hfrom h =>
      rename_i job stage
      have hwants : stage.wantsCycle = false ∧ stage.wantsTransport = false := by
        rcases hfrom with rfl | ⟨rfl, -⟩ <;> exact ⟨rfl, rfl⟩
      have hcycle := h.serves_request hst ho.cycle hwants.1 rfl rfl
      have htransport := h.serves_same hst ho.transport hwants.2.symm (absurd · Bool.false_ne_true)
      exact ho.turned h hjob hr hcycle htransport
  | queuesWrite hjob hst hc h =>
      have hcycle := h.serves_same hst ho.cycle rfl (absurd · Bool.false_ne_true)
      have htransport := h.serves_request hst ho.transport rfl rfl rfl
      exact ho.turned h hjob rfl hcycle htransport
  | declinesWrite hjob hst hc h =>
      have hcycle := h.serves_same hst ho.cycle rfl (absurd · Bool.false_ne_true)
      have htransport := h.serves_same hst ho.transport rfl (absurd · Bool.false_ne_true)
      exact ho.turned h hjob trivial hcycle htransport
  | rests hjob hw hst hfrom h =>
      rename_i job stage
      have hwants : stage.wantsCycle = false ∧ stage.wantsTransport = false := by
        rcases hfrom with rfl | ⟨rfl, -⟩ <;> exact ⟨rfl, rfl⟩
      have hcycle := h.serves_same hst ho.cycle hwants.1.symm (absurd · Bool.false_ne_true)
      have htransport := h.serves_same hst ho.transport hwants.2.symm (absurd · Bool.false_ne_true)
      exact ho.turned h hjob hw hcycle htransport
  | ends hjob hother hst hfrom h =>
      rename_i job stage outcome
      have hwants : stage.wantsCycle = false ∧ stage.wantsTransport = false := by
        rcases hfrom with rfl | rfl <;> exact ⟨rfl, rfl⟩
      have hcycle := h.serves_same hst ho.cycle hwants.1.symm (absurd · Bool.false_ne_true)
      have htransport := h.serves_same hst ho.transport hwants.2.symm (absurd · Bool.false_ne_true)
      exact ho.turned h hjob trivial hcycle htransport
  | declines hjob hst hl hc h =>
      have hcycle := h.serves_release ho.cycle hl (by simp) (by simp)
      have htransport := h.serves_same hst ho.transport (by simp; rfl) (by simp)
      exact ho.turned h hjob (fits_stageAfter _ _) hcycle htransport
  | beginsNothing hjob hst hl hc hp h =>
      have hcycle := h.serves_release ho.cycle hl (by simp) (by simp)
      have htransport := h.serves_same hst ho.transport (by simp; rfl) (by simp)
      exact ho.turned h hjob (fits_stageAfter _ _) hcycle htransport
  | begins hst hl hc hp h =>
      obtain ⟨job, hjob⟩ := job?_of_stage? hst
      have hcycle := h.serves_same hst ho.cycle rfl fun _ => hl
      have htransport := h.serves_request hst ho.transport rfl rfl rfl
      exact ho.turned h hjob ⟨ho.fits id _ _ hjob hst, hp⟩ hcycle htransport
  | asks hst hp hl hc h =>
      obtain ⟨job, hjob⟩ := job?_of_stage? hst
      have hfit := ho.fits id _ _ hjob hst
      have hcycle := h.serves_same hst ho.cycle rfl fun _ => ho.holder_of_awaitingTransport hst
      have htransport := h.serves_same hst ho.transport rfl fun _ => hl
      exact ho.turned h hjob hfit hcycle htransport
  | withdraws hjob hst hp hl hc hhub h =>
      have hcycle := h.serves_release ho.cycle (ho.holder_of_awaitingTransport hst) (by simp) (by simp)
      have htransport := h.serves_release ho.transport hl (by simp) (by simp)
      exact ho.turned h hjob (fits_stageAfter _ _) hcycle htransport
  | asksAgain hst hp hc hresult h =>
      obtain ⟨job, hjob⟩ := job?_of_stage? hst
      obtain ⟨hlc, hlt⟩ := ho.holder_of_reading hst
      have hfit := ho.fits id _ _ hjob hst
      have hcycle := h.serves_same hst ho.cycle rfl fun _ => hlc
      have htransport := h.serves_same hst ho.transport rfl fun _ => hlt
      exact ho.turned h hjob hfit hcycle htransport
  | settles hst hp hrest hc hobtains hhub h =>
      rename_i cycle a watchers rest revision attempt due result cache offers stored hub
      obtain ⟨job, hjob⟩ := job?_of_stage? hst
      obtain ⟨hlc, hlt⟩ := ho.holder_of_reading hst
      have hpending : (cycle.settle stored).1.pending = rest := by simp [Cycle.settle, hp]
      have hcycle := h.serves_same hst ho.cycle rfl fun _ => hlc
      have htransport := h.serves_requeue ho.transport hlt rfl rfl
      exact ho.turned h hjob ⟨(ho.fits id _ _ hjob hst).1, hpending ▸ hrest⟩ hcycle htransport
  | settlesLast hjob hst hp hc hobtains hhub h =>
      obtain ⟨hlc, hlt⟩ := ho.holder_of_reading hst
      have hcycle := h.serves_release ho.cycle hlc (by simp) (by simp)
      have htransport := h.serves_release ho.transport hlt (by simp) (by simp)
      exact ho.turned h hjob (fits_stageAfter _ _) hcycle htransport
  | givesUp hjob hst hp hc hhub h =>
      obtain ⟨hlc, hlt⟩ := ho.holder_of_reading hst
      have hcycle := h.serves_release ho.cycle hlc (by simp) (by simp)
      have htransport := h.serves_release ho.transport hlt (by simp) (by simp)
      exact ho.turned h hjob (fits_stageAfter _ _) hcycle htransport
  | fails hjob hst hp hc hresult hfound hhub hlast h =>
      obtain ⟨hlc, hlt⟩ := ho.holder_of_reading hst
      have hcycle := h.serves_release ho.cycle hlc (by simp) (by simp)
      have htransport := h.serves_release ho.transport hlt (by simp) (by simp)
      exact ho.turned h hjob (fits_stageAfter _ _) hcycle htransport
  | sends hst hl h =>
      obtain ⟨job, hjob⟩ := job?_of_stage? hst
      have hfit := ho.fits id _ _ hjob hst
      have hcycle := h.serves_same hst ho.cycle rfl (absurd · Bool.false_ne_true)
      have htransport := h.serves_same hst ho.transport rfl fun _ => hl
      exact ho.turned h hjob hfit hcycle htransport
  | refused hst h =>
      obtain ⟨job, hjob⟩ := job?_of_stage? hst
      have hcycle := h.serves_same hst ho.cycle rfl (absurd · Bool.false_ne_true)
      have htransport := h.serves_release ho.transport (ho.holder_of_writing hst) rfl rfl
      exact ho.turned h hjob trivial hcycle htransport
  | acknowledged hst hobtains hhub h =>
      obtain ⟨job, hjob⟩ := job?_of_stage? hst
      have hcycle := h.serves_same hst ho.cycle rfl (absurd · Bool.false_ne_true)
      have htransport := h.serves_release ho.transport (ho.holder_of_writing hst) rfl rfl
      exact ho.turned h hjob trivial hcycle htransport

-- A move that is no step may add a task, which wants no lock yet, and end one that wants none.
theorem Orderly.isAt_aside (ho : s.Orderly) (h : Aside s s') {kind : Stage → Bool}
    (hfresh : kind .fresh = false) (hidle : kind .idle = false)
    (hfinished : ∀ outcome, kind (.finished outcome) = false) (j : TaskId) :
    s'.isAt kind j = s.isAt kind j := by
  rcases h.stages j with hs | ⟨hs, hs'⟩ | ⟨⟨period, hjob⟩, hs'⟩
  · simp [isAt, hs]
  · simp [isAt, hs, hs', hfresh]
  · have hold : (s.stage? j).any kind = false := by
      cases hs : s.stage? j with
      | none => rfl
      | some stage =>
          rcases (ho.fits j _ stage hjob hs).of_drift with rfl | rfl | ⟨outcome, rfl⟩
          · exact hfresh
          · exact hidle
          · exact hfinished outcome
    simpa [isAt, hs', hfinished] using hold

theorem Orderly.aside (ho : s.Orderly) (h : Aside s s') : s'.Orderly where
  fits := by
    intro j job stage hj hs
    rcases h.stages j with hsame | ⟨-, hfresh⟩ | ⟨-, hfinished⟩
    · rw [hsame] at hs
      obtain ⟨old, hold⟩ := job?_of_stage? hs
      have hjob := h.jobs j old hold
      rw [hj] at hjob
      cases hjob
      exact ho.fits j job stage hold hs
    · rw [hfresh] at hs
      cases hs
      trivial
    · rw [hfinished] at hs
      cases hs
      trivial
  cycle := by
    rw [h.cycleLock]
    refine ho.cycle.adapt (ho.isAt_aside h rfl rfl fun _ => rfl) fun j hj => .inl ?_
    rwa [ho.isAt_aside h rfl rfl fun _ => rfl] at hj
  transport := by
    rw [h.transport]
    refine ho.transport.adapt (ho.isAt_aside h rfl rfl fun _ => rfl) fun j hj => .inl ?_
    rwa [ho.isAt_aside h rfl rfl fun _ => rfl] at hj

theorem orderly_move (s : System) (m : Move) (ho : s.Orderly) : (s.move m).Orderly := by
  rcases move_cases s m with ⟨id, -, ht⟩ | ⟨-, ha⟩
  · exact ho.turn ht
  · exact ho.aside ha

theorem Reachable.orderly (h : s.Reachable) : s.Orderly := by
  obtain ⟨settings, model, gateway, moves, rfl⟩ := h
  exact play_induction orderly_move moves (orderly_start _)

end System

end CoilHub
