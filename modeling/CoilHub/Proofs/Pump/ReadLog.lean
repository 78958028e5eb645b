import CoilHub.Proofs.Pump.Script

namespace CoilHub

namespace Pump

-- Attempts to read since the log was cleared last, oldest first, where some were made before.
def attemptsNext (attempts : List Address) : Act → List Address
  | .beginRead a => attempts ++ [a]
  | .clearLog => []
  | _ => attempts

def attemptsAfter (attempts : List Address) (acts : List Act) : List Address :=
  acts.foldl attemptsNext attempts

-- The last attempts, as many as the log has room for.
def latest (attempts : List Address) : List Address :=
  attempts.drop (attempts.length - min attempts.length logCapacity)

theorem length_latest (attempts : List Address) :
    (latest attempts).length = min attempts.length logCapacity := by
  rw [latest, List.length_drop]
  omega

-- The log compares its size with the bound before it grows. The size is right for this as long as the
-- log has what `latest` says.
theorem logRead_latest (attempts : List Address) (a : Address) :
    logRead (latest attempts) a = latest (attempts ++ [a]) := by
  rw [logRead, length_latest]
  by_cases hfull : logCapacity ≤ attempts.length
  · have hdrop : attempts.length - logCapacity + 1 = attempts.length + 1 - logCapacity := by omega
    rw [if_pos (Nat.min_eq_right hfull), latest, latest, List.drop_drop, Nat.min_eq_right hfull,
      List.length_append, List.length_singleton, Nat.min_eq_right (by omega), hdrop,
      List.drop_append_of_le_length (by unfold logCapacity at *; omega)]
  · have hroom : min attempts.length logCapacity = attempts.length := by omega
    have hstill : min (attempts.length + 1) logCapacity = attempts.length + 1 := by omega
    rw [if_neg (by omega), latest, latest, hroom, List.length_append, List.length_singleton, hstill,
      Nat.sub_self, Nat.sub_self, List.drop_zero, List.drop_zero]

theorem readLog_finishRead (p : Pump) (a : Address) : (p.finishRead a).2.readLog = p.readLog := by
  cases hdue : p.due .read a with
  | nil => rw [finishRead_of_nil hdue]
  | cons e rest => rw [finishRead_of_cons hdue]

theorem readLog_setValue (p : Pump) (a : Address) (value : CoilValue) :
    (p.setValue a value).readLog = p.readLog := by
  unfold setValue
  split <;> rfl

theorem readLog_write (p : Pump) (a : Address) (value : CoilValue) :
    (p.write a value).2.readLog = p.readLog := by
  cases hdue : p.due .write a with
  | cons e rest => rw [write_of_cons hdue]
  | nil =>
    rw [write_of_nil hdue]
    cases verdict (p.coil? a) a value with
    | ok _ => exact readLog_setValue p a value
    | error _ => rfl

theorem readLog_perform {p : Pump} {attempts : List Address} (h : p.readLog = latest attempts)
    (act : Act) : (p.perform act).2.readLog = latest (attemptsNext attempts act) := by
  cases act with
  | fail d a e => cases d <;> exact h
  | setValue a value => exact (readLog_setValue p a value).trans h
  | beginRead a =>
    rw [perform, beginRead, h]
    exact logRead_latest attempts a
  | finishRead a => exact (readLog_finishRead p a).trans h
  | write a value => exact (readLog_write p a value).trans h
  | clearLog => rfl

theorem readLog_after {p : Pump} {attempts : List Address} (h : p.readLog = latest attempts)
    (acts : List Act) : (p.after acts).readLog = latest (attemptsAfter attempts acts) := by
  induction acts generalizing p attempts with
  | nil => exact h
  | cons act acts ih => exact ih (readLog_perform h act)

-- A pump that nobody has read from has an empty log.
theorem readLog_latest {p : Pump} (h : p.readLog = []) (acts : List Act) :
    (p.after acts).readLog =
        (attemptsAfter [] acts).drop
          ((attemptsAfter [] acts).length - min (attemptsAfter [] acts).length 1024) ∧
      (p.after acts).readLog.length = min (attemptsAfter [] acts).length 1024 ∧
      (p.after acts).readLog.length ≤ 1024 := by
  have hlog : (p.after acts).readLog = latest (attemptsAfter [] acts) := readLog_after h acts
  have hlength := length_latest (attemptsAfter [] acts)
  refine ⟨hlog, ?_, ?_⟩
  · rw [hlog]
    exact hlength
  · rw [hlog, hlength]
    exact Nat.min_le_right _ _

theorem attemptsAfter_reads (attempts : List Address) (a : Address) (n : Nat) :
    attemptsAfter attempts (.replicate n (.beginRead a)) = attempts ++ .replicate n a := by
  induction n generalizing attempts with
  | zero => exact (List.append_nil attempts).symm
  | succ n ih =>
      have hfirst := ih (attempts ++ [a])
      rw [List.append_assoc] at hfirst
      exact hfirst

-- The first attempt has been cleared away, and the second one has been forgotten.
theorem readLog_latest_afterClear :
    (({ model := .smo40 } : Pump).after ([.beginRead 40004, .clearLog, .beginRead 40008] ++
      .replicate 1024 (.beginRead 40004))).readLog = .replicate 1024 40004 := by
  have hattempts : attemptsAfter [] ([.beginRead 40004, .clearLog, .beginRead 40008] ++
      .replicate 1024 (.beginRead 40004)) = 40008 :: .replicate 1024 40004 := by
    rw [attemptsAfter, List.foldl_append]
    exact attemptsAfter_reads [40008] 40004 1024
  have hlog := (@readLog_latest { model := .smo40 } rfl
    ([.beginRead 40004, .clearLog, .beginRead 40008] ++ .replicate 1024 (.beginRead 40004))).1
  rw [hattempts, List.length_cons, List.length_replicate] at hlog
  exact hlog

end Pump

end CoilHub
