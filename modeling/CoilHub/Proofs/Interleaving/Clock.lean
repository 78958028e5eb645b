import CoilHub.Proofs.Interleaving.Moves

namespace CoilHub.System

variable (s : System) (id : TaskId)

@[simp] theorem now_mapHub (f : Hub → Hub) : (s.mapHub f).now = s.now := rfl

@[simp] theorem now_mapTask (f : Task → Task) : (s.mapTask id f).now = s.now := rfl

@[simp] theorem now_setStage (stage : Stage) : (s.setStage id stage).now = s.now := rfl

@[simp] theorem now_finish (outcome : Outcome) : (s.finish id outcome).now = s.now := rfl

@[simp] theorem now_note (deed : Deed) : (s.note id deed).now = s.now := rfl

@[simp] theorem now_callEach (ls : List HubListener) : (s.callEach id ls).now = s.now := rfl

@[simp] theorem now_reserve : (s.reserve id).2.now = s.now := rfl

@[simp] theorem now_store (revision : UInt64) (a : Address) (value : CoilValue) :
    (s.store id revision a value).2.now = s.now := by
  unfold store
  split <;> rfl

@[simp] theorem now_requestCycle : (s.requestCycle id).now = s.now := rfl

@[simp] theorem now_releaseCycle : s.releaseCycle.now = s.now := rfl

@[simp] theorem now_requestTransport (stage : Stage) :
    (s.requestTransport id stage).now = s.now := rfl

@[simp] theorem now_releaseTransport : s.releaseTransport.now = s.now := rfl

@[simp] theorem now_leaveDoorbell : (s.leaveDoorbell id).now = s.now := by
  unfold leaveDoorbell
  dsimp only
  split <;> rfl

@[simp] theorem now_answerBell : (s.answerBell id).now = s.now := by
  unfold answerBell
  dsimp only
  split <;> rfl

@[simp] theorem now_rest : (s.rest id).now = s.now := by
  unfold rest
  dsimp only
  split <;> rfl

@[simp] theorem now_keepOutcome (result : Except HubError (AddressMap CachedValue)) :
    (s.keepOutcome id result).now = s.now := by
  have hfailed : (s.recordFailure id).now = s.now := by
    unfold recordFailure
    split <;> rfl
  unfold keepOutcome
  split
  · rfl
  · rfl
  · exact hfailed

@[simp] theorem now_conclude (result : Except HubError (AddressMap CachedValue)) :
    (s.conclude id result).now = s.now := by
  unfold conclude
  dsimp only
  split
  · simp
  · split <;> simp
  · simp

@[simp] theorem now_proceed (cycle : HubCycle) : (s.proceed id cycle).now = s.now := by
  unfold proceed
  split <;> simp

@[simp] theorem now_abort (cycle : HubCycle) (error : HubError) :
    (s.abort id cycle error).now = s.now := by
  simp [abort]

@[simp] theorem now_beginCycle : (s.beginCycle id).now = s.now := by
  unfold beginCycle
  split <;> simp

@[simp] theorem now_beginAttempt (cycle : HubCycle) (a : Address) (revision : UInt64)
    (attempt : Nat) : (s.beginAttempt id cycle a revision attempt).now = s.now := by
  unfold beginAttempt
  split <;> simp

@[simp] theorem now_settleAddress (cycle : HubCycle) (a : Address) (stored : Option CachedValue) :
    (s.settleAddress id cycle a stored).now = s.now := by
  simp [settleAddress]

@[simp] theorem now_readAnswered (cycle : HubCycle) (a : Address) (revision : UInt64)
    (attempt : Nat) (result : FetchResult CoilValue) :
    (s.readAnswered id cycle a revision attempt result).now = s.now := by
  unfold readAnswered
  split <;> simp

@[simp] theorem now_writeAnswered (a : Address) (revision : UInt64) (hadData : Bool)
    (result : FetchResult CoilValue) :
    (s.writeAnswered id a revision hadData result).now = s.now := by
  unfold writeAnswered
  split
  · simp
  · dsimp only
    split <;> simp

@[simp] theorem now_update (period nextTick : Nat) :
    (s.update id period nextTick).now = s.now := by
  unfold update
  split
  · simp
  · split <;> simp

@[simp] theorem now_begin (job : Job) : (s.begin id job).now = s.now := by
  unfold begin
  split
  · rfl
  · rfl
  · split <;> rfl
  · rfl
  · rfl
  · split <;> simp
  · split <;> simp

theorem now_step : (s.step id).now = s.now := by
  unfold step
  cases s.tasks[id]? with
  | none => rfl
  | some t =>
      dsimp only
      split
      · rfl
      · cases t.stage with
        | fresh => exact s.now_begin id t.job
        | awaitingCycle => exact s.now_beginCycle id
        | awaitingTransport cycle =>
            dsimp only
            split <;> simp [beginRead]
        | reading cycle revision attempt due =>
            dsimp only
            split
            · rfl
            · split <;> simp
        | awaitingWrite a value => simp [beginWrite]
        | writing a value revision hadData => simp
        | idle =>
            dsimp only
            split <;> simp [driftOnce]
        | finished outcome => rfl

theorem now_le_move (m : Move) : s.now ≤ (s.move m).now := by
  cases m with
  | step id => exact Nat.le_of_eq (s.now_step id).symm
  | wait duration => exact Nat.le_add_right _ _
  | stop id =>
      simp only [move]
      split <;> exact Nat.le_refl _
  | _ => exact Nat.le_refl _

end CoilHub.System
