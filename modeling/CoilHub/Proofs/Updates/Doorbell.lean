import CoilHub.Proofs.Updates.Requests
import Mathlib.Data.List.Nodup

namespace CoilHub

namespace Doorbell

-- The rings that are still to be answered.
def outstanding (d : Doorbell) : Nat := d.kept.toNat + d.reached.length

-- Everybody who waits for a ring or has been reached by one.
def listeners (d : Doorbell) : List TaskId := d.waiting ++ d.reached

def joinedBy (d : Doorbell) (id : TaskId) : Doorbell := { d with waiting := d.waiting ++ [id] }

def without (d : Doorbell) (id : TaskId) : Doorbell :=
  { d with waiting := d.waiting.erase id, reached := d.reached.erase id }

-- Somebody leaves, and a ring that has reached it goes to the next one.
def leftBy (d : Doorbell) (id : TaskId) : Doorbell :=
  if id ∈ d.reached then (d.without id).ring else d.without id

-- Somebody uses a ring up.
def answeredBy (d : Doorbell) (id : TaskId) : Doorbell :=
  if id ∈ d.reached then { d with reached := d.reached.erase id } else { d with kept := false }

section

variable {d : Doorbell} {id : TaskId}

theorem outstanding_ring_le : d.ring.outstanding ≤ d.outstanding + 1 := by
  cases hw : d.waiting with
  | nil => cases hk : d.kept <;> simp [ring, outstanding, hw, hk, Nat.add_comm]
  | cons task waiting => simp [ring, outstanding, hw, Nat.add_assoc]

-- A ring is not lost, whether there is anybody to hear it or not.
theorem outstanding_ring_pos : 0 < d.ring.outstanding := by
  cases hw : d.waiting with
  | nil => simp [ring, outstanding, hw, Nat.add_comm]
  | cons task waiting =>
      simp only [ring, outstanding, hw, List.length_append, List.length_singleton]
      omega

theorem outstanding_iterate_le (n : Nat) : (ring^[n] d).outstanding ≤ d.outstanding + n := by
  induction n with
  | zero => exact Nat.le_refl _
  | succ n ih =>
      rw [Function.iterate_succ_apply']
      exact Nat.le_trans outstanding_ring_le (Nat.succ_le_succ ih)

theorem outstanding_iterate_pos {n : Nat} (h : 0 < d.outstanding ∨ 0 < n) :
    0 < (ring^[n] d).outstanding := by
  cases n with
  | zero => exact h.resolve_right (Nat.lt_irrefl 0)
  | succ n =>
      rw [Function.iterate_succ_apply']
      exact outstanding_ring_pos

theorem outstanding_leftBy_le : (d.leftBy id).outstanding ≤ d.outstanding := by
  unfold leftBy
  split
  case isTrue hmem =>
    have hlength := List.length_erase_add_one hmem
    have hring := outstanding_ring_le (d := d.without id)
    simp only [outstanding, without] at hring ⊢
    omega
  case isFalse hmem => simp [outstanding, without, List.erase_of_not_mem hmem]

theorem outstanding_leftBy_pos (h : 0 < d.outstanding) : 0 < (d.leftBy id).outstanding := by
  unfold leftBy
  split
  case isTrue hmem => exact outstanding_ring_pos
  case isFalse hmem => simpa [outstanding, without, List.erase_of_not_mem hmem] using h

theorem outstanding_joinedBy : (d.joinedBy id).outstanding = d.outstanding := rfl

-- Whoever answers a ring has heard one.
theorem outstanding_answeredBy (h : (d.kept || d.reached.contains id) = true) :
    (d.answeredBy id).outstanding + 1 = d.outstanding := by
  unfold answeredBy
  split
  case isTrue hmem =>
    have hlength := List.length_erase_add_one hmem
    simp only [outstanding]
    omega
  case isFalse hmem =>
    have hkept : d.kept = true := by simpa [hmem] using h
    simp only [outstanding, hkept, Bool.toNat_false, Bool.toNat_true]
    omega

theorem listeners_ring : d.ring.listeners.Perm d.listeners := by
  cases hw : d.waiting with
  | nil => simp [ring, listeners, hw]
  | cons task waiting =>
      simp only [ring, listeners, hw, ← List.append_assoc]
      exact List.perm_append_singleton task (waiting ++ d.reached)

theorem kept_ring (h : d.kept = true → d.waiting = []) :
    d.ring.kept = true → d.ring.waiting = [] := by
  cases hw : d.waiting with
  | nil => simp [ring, hw]
  | cons task waiting =>
      rw [hw] at h
      intro hk
      simp only [ring, hw] at hk
      cases h hk

end

-- A ring is kept only if nobody waits for one, and those at the doorbell are of a certain kind and
-- there once each.
structure Tidy (d : Doorbell) (kind : TaskId → Prop) : Prop where
  kept : d.kept = true → d.waiting = []
  once : d.listeners.Nodup
  fits : ∀ id ∈ d.listeners, kind id

namespace Tidy

variable {d : Doorbell} {kind : TaskId → Prop} {id : TaskId} (h : d.Tidy kind)
include h

theorem adapt {other : TaskId → Prop} (hfits : ∀ j ∈ d.listeners, kind j → other j) :
    d.Tidy other :=
  ⟨h.kept, h.once, fun j hj => hfits j hj (h.fits j hj)⟩

theorem ring : d.ring.Tidy kind where
  kept := kept_ring h.kept
  once := listeners_ring.nodup_iff.mpr h.once
  fits := fun j hj => h.fits j (listeners_ring.mem_iff.mp hj)

theorem iterate (n : Nat) : (Doorbell.ring^[n] d).Tidy kind := by
  induction n with
  | zero => exact h
  | succ n ih =>
      rw [Function.iterate_succ_apply']
      exact ih.ring

theorem joinedBy (hkept : d.kept = false) (hid : ¬kind id) :
    (d.joinedBy id).Tidy fun j => j = id ∨ kind j := by
  have hperm : (d.joinedBy id).listeners.Perm (id :: d.listeners) := by
    simp only [Doorbell.joinedBy, listeners, List.append_assoc, List.singleton_append]
    exact List.perm_middle
  have hnot : id ∉ d.listeners := fun hmem => hid (h.fits id hmem)
  refine ⟨fun hk => ?_, hperm.nodup_iff.mpr (List.nodup_cons.mpr ⟨hnot, h.once⟩), fun j hj => ?_⟩
  · rw [Doorbell.joinedBy, hkept] at hk
    cases hk
  · exact (List.mem_cons.mp (hperm.mem_iff.mp hj)).imp_right (h.fits j)

theorem without : (d.without id).Tidy fun j => j ≠ id ∧ kind j := by
  obtain ⟨hwaiting, hreached, -⟩ := List.nodup_append.mp h.once
  have hsub : (d.without id).listeners.Sublist d.listeners :=
    List.erase_sublist.append List.erase_sublist
  refine ⟨fun hk => ?_, h.once.sublist hsub, fun j hj => ⟨?_, h.fits j (hsub.subset hj)⟩⟩
  · simp [Doorbell.without, h.kept hk]
  · rintro rfl
    rcases List.mem_append.mp hj with hmem | hmem
    · exact hwaiting.not_mem_erase hmem
    · exact hreached.not_mem_erase hmem

theorem leftBy : (d.leftBy id).Tidy fun j => j ≠ id ∧ kind j := by
  unfold Doorbell.leftBy
  split
  · exact h.without.ring
  · exact h.without

theorem answeredBy (hrung : (d.kept || d.reached.contains id) = true) :
    (d.answeredBy id).Tidy fun j => j ≠ id ∧ kind j := by
  obtain ⟨-, hreached, hdisjoint⟩ := List.nodup_append.mp h.once
  unfold Doorbell.answeredBy
  split
  case isTrue hmem =>
    have hsub : (d.waiting ++ d.reached.erase id).Sublist d.listeners :=
      (List.Sublist.refl _).append List.erase_sublist
    refine ⟨h.kept, h.once.sublist hsub, fun j hj => ⟨?_, h.fits j (hsub.subset hj)⟩⟩
    rintro rfl
    rcases List.mem_append.mp hj with hwaits | hagain
    · exact hdisjoint j hwaits j hmem rfl
    · exact hreached.not_mem_erase hagain
  case isFalse hmem =>
    have hkept : d.kept = true := by simpa [hmem] using hrung
    refine ⟨nofun, h.once, fun j hj => ⟨?_, h.fits j hj⟩⟩
    rintro rfl
    have hwaits : j ∉ d.waiting := by simp [h.kept hkept]
    exact (List.mem_append.mp hj).elim hwaits hmem

end Tidy

end Doorbell

namespace System

variable {s s' m : System} {id : TaskId}

-- An update loop that waits for its next tick or a request.
def Listens (s : System) (id : TaskId) : Prop :=
  (∃ period, s.job? id = some (.updates period)) ∧ s.stage? id = some .idle

-- The doorbell when it has been rung as often as listeners have asked for a refresh since then.
def bellAfter (s s' : System) : Doorbell :=
  Doorbell.ring^[((deedsSince s s').map Deed.requests).sum] s.hub.doorbell

-- Nobody but listeners has touched the doorbell, which has been rung as often as they asked for a
-- refresh.
def Rings (s m : System) : Prop :=
  ∃ deeds, m.log = s.log ++ deeds ∧
    m.hub.doorbell = Doorbell.ring^[(deeds.map Deed.requests).sum] s.hub.doorbell

namespace Rings

theorem refl (s : System) : Rings s s := ⟨[], (List.append_nil _).symm, rfl⟩

variable (h : Rings s m)
include h

theorem bell : m.hub.doorbell = bellAfter s m := by
  obtain ⟨deeds, hlog, hbell⟩ := h
  unfold bellAfter
  rw [deedsSince_of_log_eq hlog]
  exact hbell

-- Whatever else changes.
theorem keep {next : System} (hjournal : next.journal = m.journal)
    (hbell : next.hub.doorbell = m.hub.doorbell) : Rings s next := by
  obtain ⟨deeds, hlog, hrung⟩ := h
  refine ⟨deeds, ?_, hbell.trans hrung⟩
  rw [← hlog]
  exact log_of_journal_eq hjournal

theorem note {deed : Deed} (hdeed : deed.requests = 0) : Rings s (m.note id deed) := by
  obtain ⟨deeds, hlog, hrung⟩ := h
  refine ⟨deeds ++ [deed], ?_, ?_⟩
  · rw [← List.append_assoc, ← hlog]
    simp [log, System.note]
  · rw [List.map_append, List.sum_append, List.map_singleton, List.sum_singleton, hdeed]
    exact hrung

theorem callEach (ls : List HubListener) : Rings s (m.callEach id ls) := by
  obtain ⟨deeds, hlog, hrung⟩ := h
  refine ⟨deeds ++ [.calls m.hub ls], ?_, ?_⟩
  · rw [← List.append_assoc, ← hlog]
    simp [log, System.callEach, System.note, System.mapHub]
  · rw [List.map_append, List.sum_append, List.map_singleton, List.sum_singleton, Nat.add_comm,
      Function.iterate_add_apply, ← hrung]
    exact Hub.doorbell_callEach m.hub ls

omit h in
theorem doorbell_wakeHolder (hub : Hub) (lock : Lock) :
    (wakeHolder hub lock).doorbell = hub.doorbell := by
  unfold wakeHolder
  split <;> rfl

theorem releaseCycle : Rings s m.releaseCycle := h.keep rfl (doorbell_wakeHolder _ _)

theorem releaseTransport : Rings s m.releaseTransport := h.keep rfl (doorbell_wakeHolder _ _)

theorem keepOutcome (result : RefreshResult) : Rings s (m.keepOutcome id result) := by
  have hfailed : Rings s (m.recordFailure id) := by
    unfold System.recordFailure
    split
    · have hcleared : Rings s (m.mapHub fun hub => { hub with lastSuccess := false }) :=
        h.keep rfl rfl
      exact hcleared.callEach _
    · exact h
  match result with
  | .ok _ => exact h.keep rfl rfl
  | .error .cancelled => exact h
  | .error (.refreshFailed _ _) => exact hfailed
  | .error (.writeFailed _ _) => exact hfailed
  | .error (.startFailed _) => exact hfailed

end Rings

-- What a part of a step comes to: the doorbell has been rung by listeners, and then an update loop
-- may have gone to rest.
def Subsides (id : TaskId) (s s' : System) : Prop :=
  Rings s s' ∨ ∃ m, Rings s m ∧ s' = m.rest id ∧ ∃ period, s'.job? id = some (.updates period)

theorem tasks_keepOutcome (result : RefreshResult) : (m.keepOutcome id result).tasks = m.tasks := by
  have hfailed : (m.recordFailure id).tasks = m.tasks := by
    unfold recordFailure
    split <;> rfl
  match result with
  | .ok _ => rfl
  | .error .cancelled => rfl
  | .error (.refreshFailed _ _) => exact hfailed
  | .error (.writeFailed _ _) => exact hfailed
  | .error (.startFailed _) => exact hfailed

theorem job?_rest (m : System) (id j : TaskId) : (m.rest id).job? j = m.job? j := by
  have hidle : (m.setStage id .idle).job? j = m.job? j := job?_mapTask m id j _ fun _ => rfl
  unfold rest
  dsimp only
  split <;> exact hidle

namespace Rings

variable (h : Rings s m)
include h

theorem conclude (result : RefreshResult) : Subsides id s (m.conclude id result) := by
  have hnoted : Rings s (m.note id (.returns result)) := h.note rfl
  have hkept : Rings s ((m.note id (.returns result)).keepOutcome id result) :=
    hnoted.keepOutcome result
  have hrest : ∀ {period}, (m.note id (.returns result)).job? id = some (.updates period) →
      Subsides id s (((m.note id (.returns result)).keepOutcome id result).rest id) := by
    intro period hjob
    refine .inr ⟨_, hkept, rfl, period, ?_⟩
    rw [job?_rest]
    unfold job? at hjob ⊢
    rwa [tasks_keepOutcome]
  unfold System.conclude
  dsimp only
  split
  · exact .inl (hkept.keep rfl rfl)
  case h_2 period hjob =>
    match result with
    | .ok _ => exact hrest hjob
    | .error .cancelled => exact .inl (hkept.keep rfl rfl)
    | .error (.refreshFailed _ _) => exact hrest hjob
    | .error (.writeFailed _ _) => exact hrest hjob
    | .error (.startFailed _) => exact hrest hjob
  · exact .inl (hnoted.keep rfl rfl)

theorem proceed (cycle : HubCycle) : Subsides id s (m.proceed id cycle) := by
  unfold System.proceed
  split
  · exact h.releaseCycle.conclude _
  · exact .inl (h.keep rfl rfl)

theorem abort (cycle : HubCycle) (error : HubError) : Subsides id s (m.abort id cycle error) := by
  have hnoted : Rings s (m.note id .abandons) := h.note rfl
  exact ((hnoted.callEach cycle.waiting).releaseTransport.releaseCycle).conclude _

theorem beginAttempt (cycle : HubCycle) (a : Address) (revision : UInt64) (attempt : Nat) :
    Subsides id s (m.beginAttempt id cycle a revision attempt) := by
  unfold System.beginAttempt
  split
  · exact h.abort cycle _
  · have hbegun : Rings s (m.mapHub (·.beginRead a)) := h.keep rfl rfl
    have hnoted : Rings s ((m.mapHub (·.beginRead a)).note id (.asks a)) := hbegun.note rfl
    exact .inl (hnoted.keep rfl rfl)

theorem reserve : Rings s (m.reserve id).2 := by
  have hreserved : Rings s { m with hub := m.hub.nextRevision.2 } := h.keep rfl rfl
  exact hreserved.note rfl

theorem store (revision : UInt64) (a : Address) (value : CoilValue) :
    Rings s (m.store id revision a value).2 := by
  unfold System.store
  split
  case h_1 next hstore =>
    have hcached : Rings s { m with hub.cache := next } := h.keep rfl rfl
    exact hcached.note rfl
  · exact h.note rfl

theorem settleAddress (cycle : HubCycle) (a : Address) (stored : Option CachedValue) :
    Subsides id s (m.settleAddress id cycle a stored) := by
  have hnoted : Rings s (m.note id (.settles a)) := h.note rfl
  exact (hnoted.callEach (cycle.settle stored).2).releaseTransport.proceed _

theorem readAnswered (cycle : HubCycle) (a : Address) (revision : UInt64) (attempt : Nat)
    (result : FetchResult CoilValue) :
    Subsides id s (m.readAnswered id cycle a revision attempt result) := by
  unfold System.readAnswered
  split
  · exact h.beginAttempt cycle a revision _
  · exact (h.store revision a _).settleAddress cycle a _
  · exact h.settleAddress cycle a none
  · exact h.abort cycle _
  · exact h.abort cycle _
  · exact h.abort cycle _

theorem writeAnswered (a : Address) (revision : UInt64) (hadData : Bool)
    (result : FetchResult CoilValue) :
    Rings s (m.writeAnswered id a revision hadData result) := by
  cases result with
  | error e => exact h.releaseTransport.keep rfl rfl
  | ok ack =>
      have hstored : Rings s (m.store id revision a ack).2 := h.store revision a ack
      have hcalled : Rings s (if hadData then
          (m.store id revision a ack).2.callEach id
            ((m.store id revision a ack).2.hub.registry.watching a)
          else (m.store id revision a ack).2) := by
        split
        · exact hstored.callEach _
        · exact hstored
      exact hcalled.releaseTransport.keep rfl rfl

theorem beginCycle : Subsides id s (m.beginCycle id) := by
  unfold System.beginCycle
  split
  · exact h.releaseCycle.conclude _
  · have hnoted : Rings s (m.note id (.begins m.hub.registry.listeners)) := h.note rfl
    exact hnoted.proceed _

theorem begin {job : Job} (hjob : m.job? id = some job) : Subsides id s (m.begin id job) := by
  cases job with
  | refresh => exact .inl (h.keep rfl rfl)
  | cycle => exact .inl (h.keep rfl rfl)
  | write a value =>
      unfold System.begin
      dsimp only
      split <;> exact .inl (h.keep rfl rfl)
  | start => exact .inl (h.keep rfl rfl)
  | shutdown => exact .inl (h.keep rfl rfl)
  | updates period =>
      unfold System.begin
      dsimp only
      split
      · exact .inl (h.keep rfl rfl)
      · have hset : Rings s (m.mapTask id fun t => { t with nextTick := m.now }) := h.keep rfl rfl
        refine .inr ⟨_, hset, rfl, period, ?_⟩
        rw [job?_rest, ← hjob]
        exact job?_mapTask m id id _ fun _ => rfl
  | drift period =>
      unfold System.begin
      dsimp only
      split <;> exact .inl (h.keep rfl rfl)

end Rings

theorem doorbell_leaveDoorbell (s : System) (id : TaskId) :
    (s.leaveDoorbell id).hub.doorbell = s.hub.doorbell.leftBy id := by
  unfold leaveDoorbell Doorbell.leftBy
  dsimp only
  split
  · exact Hub.doorbell_requestRefresh _
  · rfl

theorem doorbell_answerBell (s : System) (id : TaskId) :
    (s.answerBell id).hub.doorbell = s.hub.doorbell.answeredBy id := by
  unfold answerBell Doorbell.answeredBy
  dsimp only
  split <;> rfl

theorem journal_leaveDoorbell (s : System) (id : TaskId) :
    (s.leaveDoorbell id).journal = s.journal := by
  unfold leaveDoorbell
  dsimp only
  split <;> rfl

theorem journal_answerBell (s : System) (id : TaskId) :
    (s.answerBell id).journal = s.journal := by
  unfold answerBell
  dsimp only
  split <;> rfl

-- What a step makes of the doorbell, by what the task is. An update loop that goes on makes nothing
-- else of the hub.
inductive Tolls (id : TaskId) (s s' : System) : Prop
  | stays (hs : s' = s) (hoff : s.enabled id = false)
  | subsides (h : Subsides id s s') (hother : ¬s.Listens id)
  | leaves (hl : s.Listens id) (hc : s.hub.cancelled = true)
    (hbell : s'.hub.doorbell = s.hub.doorbell.leftBy id) (hjournal : s'.journal = s.journal)
    (hst : s'.stage? id = some (.finished (.ok .stopped)))
  | ticks {t : Task} (hl : s.Listens id) (ht : s.tasks[id]? = some t)
    (hc : s.hub.cancelled = false) (hdue : t.nextTick ≤ s.now)
    (hbell : s'.hub.doorbell = s.hub.doorbell.leftBy id) (hjournal : s'.journal = s.journal)
    (hst : s'.stage? id = some .awaitingCycle)
  | answers {t : Task} (hl : s.Listens id) (ht : s.tasks[id]? = some t)
    (hc : s.hub.cancelled = false) (hdue : s.now < t.nextTick) (hrung : s.isRung id = true)
    (hbell : s'.hub.doorbell = s.hub.doorbell.answeredBy id) (hjournal : s'.journal = s.journal)
    (hst : s'.stage? id = some .awaitingCycle)

theorem step_tolls (s : System) (id : TaskId) : Tolls id s (s.step id) := by
  have hself := Rings.refl s
  unfold step
  cases ht : s.tasks[id]? with
  | none => exact .stays rfl (by simp [enabled, ht])
  | some t =>
      have hjob : s.job? id = some t.job := by simp [job?, ht]
      have hstage : s.stage? id = some t.stage := by simp [stage?, ht]
      have hother : t.stage ≠ .idle → ¬s.Listens id := by
        rintro hne ⟨-, hst⟩
        rw [hstage] at hst
        exact hne (Option.some.inj hst)
      cases he : s.enabled id with
      | false => simpa [he] using Tolls.stays rfl he
      | true =>
          simp only [Bool.not_true, Bool.false_eq_true, if_false]
          cases hst : t.stage with
          | fresh => exact .subsides (hself.begin hjob) (hother (by simp [hst]))
          | awaitingCycle => exact .subsides hself.beginCycle (hother (by simp [hst]))
          | awaitingTransport cycle =>
              refine .subsides ?_ (hother (by simp [hst]))
              dsimp only
              split
              · exact .inl hself
              · exact hself.reserve.beginAttempt cycle _ _ _
          | reading cycle revision attempt due =>
              refine .subsides ?_ (hother (by simp [hst]))
              dsimp only
              split
              · exact .inl hself
              case h_2 a watchers rest hp =>
                split
                · exact hself.abort cycle _
                · have hanswered : Rings s { s with hub := (s.hub.finishRead a).2 } :=
                    hself.keep rfl rfl
                  exact (hanswered.note rfl).readAnswered cycle a revision attempt _
          | awaitingWrite a value =>
              refine .subsides (.inl ?_) (hother (by simp [hst]))
              have hsent : Rings s ((s.reserve id).2.mapHub (·.beginWrite a value)) :=
                hself.reserve.keep rfl rfl
              have hnoted : Rings s (((s.reserve id).2.mapHub (·.beginWrite a value)).note id
                  (.sends a value)) := hsent.note rfl
              exact hnoted.keep rfl rfl
          | writing a value revision hadData =>
              refine .subsides (.inl ?_) (hother (by simp [hst]))
              have hanswered : Rings s { s with hub := (s.hub.finishWrite a value).2 } :=
                hself.keep rfl rfl
              exact (hanswered.note rfl).writeAnswered a revision hadData _
          | idle =>
              cases hj : t.job with
              | updates period =>
                  have hl : s.Listens id :=
                    ⟨⟨period, by rw [hjob, hj]⟩, by rw [hstage, hst]⟩
                  have hleft := (Turned.start hl.2).leaveDoorbell
                  dsimp only
                  unfold update
                  split
                  case isTrue hc =>
                    exact .leaves hl hc (doorbell_leaveDoorbell s id) (journal_leaveDoorbell s id)
                      (hleft.finish _).stage
                  case isFalse hc =>
                    have hc := Bool.eq_false_iff.mpr hc
                    split
                    case isTrue hdue =>
                      have hset := hleft.setTimers (fun _ => tickAfter t.nextTick s.now period) Task.ticks
                      exact .ticks hl ht hc hdue (doorbell_leaveDoorbell s id)
                        (journal_leaveDoorbell s id) hset.requestCycle.stage
                    case isFalse hdue =>
                      simp only [enabled, ht, hst, hj, hc, Bool.false_or, hdue, decide_false] at he
                      exact .answers hl ht hc (Nat.lt_of_not_le hdue) he (doorbell_answerBell s id)
                        (journal_answerBell s id) (Turned.start hl.2).answerBell.requestCycle.stage
              | drift period =>
                  refine .subsides (.inl (hself.keep rfl rfl)) ?_
                  rintro ⟨⟨period', hupdates⟩, -⟩
                  rw [hjob, hj] at hupdates
                  cases hupdates
              | _ =>
                  refine .subsides (.inl hself) ?_
                  rintro ⟨⟨period', hupdates⟩, -⟩
                  rw [hjob, hj] at hupdates
                  cases hupdates
          | finished outcome => exact .subsides (.inl hself) (hother (by simp [hst]))

end System

end CoilHub
