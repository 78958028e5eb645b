import CoilHub.Entity
import CoilHub.Hub.System

namespace CoilHub.System

-- The gateway may turn into any other one at any moment, so a call may be answered in any way and
-- after any time.
inductive Move
  | step (id : TaskId)
  | spawn (job : Job)
  -- ends a drift of temperatures
  | stop (id : TaskId)
  | act (action : Action)
  | attach (coil : Coil)
  | detach (e : Entity)
  | gateway (g : Gateway)
  -- listeners notify one another as deeply as they like, so the bound may be any number
  | nesting (depth : Nat)
  | wait (duration : Nat)
  -- what the scheduler and the session keep for themselves
  | rouse (woken : List TaskId)
  | forget

def move (s : System) : Move → System
  | .step id => s.step id
  | .spawn job => s.spawn job
  | .stop id =>
    match s.job? id with
    | some (.drift _) => s.stop id
    | _ => s
  | .act action => s.mapHub (·.act action)
  | .attach coil => s.mapHub fun hub => (Entity.attach hub coil).2
  | .detach e => s.mapHub (Entity.detach · e)
  | .gateway g => s.mapHub fun hub => { hub with gateway := g }
  | .nesting depth => s.mapHub fun hub => { hub with nesting := depth }
  | .wait duration => { s with now := s.now + duration }
  | .rouse woken => s.mapHub fun hub => { hub with woken }
  | .forget => s.mapHub fun hub => { hub with history := [] }

theorem step_of_not_enabled {s : System} {id : TaskId} (h : s.enabled id = false) :
    s.step id = s := by
  unfold step
  cases s.tasks[id]? with
  | none => rfl
  | some t => simp [h]

theorem step_fresh {s : System} {id : TaskId} {job : Job} (hjob : s.job? id = some job)
    (hst : s.stage? id = some .fresh) : s.step id = s.begin id job := by
  obtain ⟨t, ht, hstage⟩ := Option.map_eq_some_iff.mp hst
  obtain rfl : t.job = job := by simpa [job?, ht] using hjob
  simp [step, enabled, ht, hstage]

def play (s : System) (moves : List Move) : System := moves.foldl move s

@[simp] theorem play_nil (s : System) : s.play [] = s := rfl

@[simp] theorem play_cons (s : System) (m : Move) (moves : List Move) :
    s.play (m :: moves) = (s.move m).play moves := rfl

theorem play_append (s : System) (moves more : List Move) :
    s.play (moves ++ more) = (s.play moves).play more := List.foldl_append

-- A property of all states of a run follows from one of a single move.
theorem play_induction {P : System → Prop} (hstep : ∀ s m, P s → P (s.move m)) (moves : List Move)
    {s : System} (h : P s) : P (s.play moves) := by
  induction moves generalizing s with
  | nil => exact h
  | cons m rest ih => exact ih (hstep s m h)

def fresh (settings : HubConfig) (model : Model) (gateway : Gateway) : System :=
  { hub := { settings, model, gateway } }

def Reachable (s : System) : Prop :=
  ∃ settings model gateway moves, s = (fresh settings model gateway).play moves

theorem Reachable.play {s : System} (h : s.Reachable) (moves : List Move) :
    (s.play moves).Reachable := by
  obtain ⟨settings, model, gateway, before, rfl⟩ := h
  exact ⟨settings, model, gateway, before ++ moves, (play_append _ before moves).symm⟩

-- A property of all states that can be reached follows from one of the states at the beginning and
-- one of a single move.
theorem Reachable.induction {P : System → Prop}
    (hstart : ∀ settings model gateway, P (fresh settings model gateway))
    (hstep : ∀ s m, s.Reachable → P s → P (s.move m)) {s : System} (h : s.Reachable) : P s := by
  obtain ⟨settings, model, gateway, moves, rfl⟩ := h
  have hboth : ((fresh settings model gateway).play moves).Reachable ∧
      P ((fresh settings model gateway).play moves) := by
    apply play_induction (P := fun s => s.Reachable ∧ P s)
    · rintro s m ⟨hs, hp⟩
      exact ⟨hs.play [m], hstep s m hs hp⟩
    · exact ⟨⟨settings, model, gateway, [], rfl⟩, hstart settings model gateway⟩
  exact hboth.2

-- What all tasks did, in the order in which they did it.
def log (s : System) : List Deed := (s.journal.map Prod.snd).reverse

theorem log_of_journal_eq {s t : System} (h : t.journal = s.journal) : t.log = s.log := by
  unfold log
  rw [h]

-- What was done from one state to a later one.
def deedsSince (s t : System) : List Deed := t.log.drop s.log.length

theorem deedsSince_of_log_eq {s t : System} {deeds : List Deed} (h : t.log = s.log ++ deeds) :
    deedsSince s t = deeds := by
  unfold deedsSince
  rw [h, List.drop_left]

theorem deedsSince_of_journal_eq {s t : System} (h : t.journal = s.journal) :
    deedsSince s t = [] := by
  apply deedsSince_of_log_eq
  rw [log_of_journal_eq h, List.append_nil]

theorem deedsSince_self (s : System) : deedsSince s s = [] := deedsSince_of_journal_eq rfl

-- What a single task did.
def deeds (s : System) (id : TaskId) : List Deed :=
  (s.journal.filterMap fun entry => if entry.1 = id then some entry.2 else none).reverse

end CoilHub.System
