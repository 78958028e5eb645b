import CoilHub.Proofs.Interleaving.Locks
import CoilHub.Proofs.Refresh.Course

namespace CoilHub

-- A refresh that has come to its end: what it did from the moment at which it had its listeners.
structure Refresh where
  listeners : List HubListener
  deeds : List Deed
  result : RefreshResult

structure Diary where
  made : List Refresh := []
  -- the listeners and the deeds of a refresh that is under way
  current : Option (List HubListener × List Deed) := none

-- Whether a deed neither begins a refresh nor ends one.
def Deed.isPlain : Deed → Bool
  | .begins _ | .returns _ => false
  | _ => true

namespace Diary

def next (d : Diary) (deed : Deed) : Diary :=
  match deed, d.current with
  | .begins ls, _ => { d with current := some (ls, []) }
  | .returns result, some (listeners, deeds) =>
    { made := d.made ++ [{ listeners, deeds, result }] }
  | deed, some (ls, deeds) => { d with current := some (ls, deeds ++ [deed]) }
  | _, none => d

def write (d : Diary) (deeds : List Deed) : Diary := deeds.foldl next d

variable {d : Diary} {ls : List HubListener} {deeds more : List Deed}

theorem write_append (d : Diary) (deeds more : List Deed) :
    d.write (deeds ++ more) = (d.write deeds).write more := List.foldl_append

theorem write_outside (h : d.current = none) (hmore : more.all Deed.isPlain = true) :
    d.write more = d := by
  unfold write
  induction more with
  | nil => rfl
  | cons deed rest ih =>
      rw [List.all_cons, Bool.and_eq_true] at hmore
      have hnext : d.next deed = d := by
        unfold next
        rw [h]
        cases deed <;> first | rfl | cases hmore.1
      rw [List.foldl_cons, hnext]
      exact ih hmore.2

theorem write_inside (h : d.current = some (ls, deeds)) (hmore : more.all Deed.isPlain = true) :
    d.write more = { d with current := some (ls, deeds ++ more) } := by
  unfold write
  induction more generalizing d deeds with
  | nil => simp [← h]
  | cons deed rest ih =>
      rw [List.all_cons, Bool.and_eq_true] at hmore
      have hnext : d.next deed = { d with current := some (ls, deeds ++ [deed]) } := by
        unfold next
        rw [h]
        cases deed <;> first | rfl | cases hmore.1
      rw [List.foldl_cons, hnext, ih rfl hmore.2, List.append_assoc, List.singleton_append]

-- A refresh ends. What its task does about the result is no part of it.
theorem write_returns {told : List Deed} (result : RefreshResult)
    (h : d.current = some (ls, deeds)) (hmore : more.all Deed.isPlain = true)
    (htold : told.all Deed.isPlain = true) :
    d.write (more ++ .returns result :: told) =
      { made := d.made ++ [{ listeners := ls, deeds := deeds ++ more, result }] } := by
  rw [write_append, write_inside h hmore]
  exact write_outside rfl htold

end Diary

def refreshes (deeds : List Deed) : List Refresh := (Diary.write {} deeds).made

namespace System

def diary (s : System) (id : TaskId) : Diary := Diary.write {} (s.deeds id)

def Unique (ls : List HubListener) : Prop := (ls.map (·.handle)).Nodup

-- A refresh that is under way has got to the stage of its task, and a task that is at no cycle has
-- none under way.
def Abreast (limit : Nat) (stage : Stage) : Option (List HubListener × List Deed) → Prop
  | none => stage.cycle? = none
  | some (ls, deeds) => Unique ls ∧ Going limit ls deeds stage

structure Diligent (limit : Nat) (d : Diary) (stage : Stage) : Prop where
  made : ∀ r ∈ d.made, Unique r.listeners ∧ Course limit r.listeners r.deeds r.result
  abreast : Abreast limit stage d.current

namespace Diligent

variable {limit : Nat} {d : Diary} {stage : Stage} (h : Diligent limit d stage)
include h

theorem current_eq_none (hstage : stage.cycle? = none) : d.current = none := by
  have habreast := h.abreast
  unfold Abreast at habreast
  split at habreast
  case h_1 hcurrent => exact hcurrent
  case h_2 => exact absurd hstage (Going.cycle?_ne_none habreast.2)

theorem current_eq_some {cycle : HubCycle} (hstage : stage.cycle? = some cycle) :
    ∃ ls deeds, d.current = some (ls, deeds) ∧ Unique ls ∧ Going limit ls deeds stage := by
  have habreast := h.abreast
  unfold Abreast at habreast
  split at habreast
  case h_1 => simp [hstage] at habreast
  case h_2 ls deeds hcurrent => exact ⟨ls, deeds, hcurrent, habreast⟩

theorem outside {next : Stage} {more : List Deed} (hstage : stage.cycle? = none)
    (hnext : next.cycle? = none) (hmore : more.all Deed.isPlain = true) :
    Diligent limit (d.write more) next := by
  have hcurrent := h.current_eq_none hstage
  rw [Diary.write_outside hcurrent hmore]
  exact ⟨h.made, by rw [hcurrent]; exact hnext⟩

theorem inside {next : Stage} {more : List Deed} {cycle : HubCycle}
    (hstage : stage.cycle? = some cycle) (hmore : more.all Deed.isPlain = true)
    (hgoing : ∀ {ls deeds}, Going limit ls deeds stage → Going limit ls (deeds ++ more) next) :
    Diligent limit (d.write more) next := by
  obtain ⟨ls, deeds, hcurrent, hunique, hold⟩ := h.current_eq_some hstage
  rw [Diary.write_inside hcurrent hmore]
  exact ⟨h.made, hunique, hgoing hold⟩

theorem returns {next : Stage} (more : List Deed) {told : List Deed} {result : RefreshResult}
    {cycle : HubCycle} (hstage : stage.cycle? = some cycle) (hnext : next.cycle? = none)
    (hmore : more.all Deed.isPlain = true) (htold : told.all Deed.isPlain = true)
    (hcourse : ∀ {ls deeds}, Going limit ls deeds stage →
      Course limit ls (deeds ++ more) result) :
    Diligent limit (d.write (more ++ .returns result :: told)) next := by
  obtain ⟨ls, deeds, hcurrent, hunique, hold⟩ := h.current_eq_some hstage
  rw [Diary.write_returns result hcurrent hmore htold]
  refine ⟨?_, hnext⟩
  intro r hr
  rcases List.mem_append.mp hr with hr | hr
  · exact h.made r hr
  · rw [List.mem_singleton.mp hr]
    exact ⟨hunique, hcourse hold⟩

-- A refresh that is declined leaves no trace.
theorem declines {next : Stage} (result : RefreshResult) (hstage : stage.cycle? = none)
    (hnext : next.cycle? = none) : Diligent limit (d.write [.returns result]) next := by
  have hcurrent := h.current_eq_none hstage
  have hwrite : d.write [.returns result] = d := by simp [Diary.write, Diary.next, hcurrent]
  rw [hwrite]
  exact ⟨h.made, by rw [hcurrent]; exact hnext⟩

theorem begins {ls : List HubListener} (hunique : Unique ls)
    (hp : (Cycle.plan ls).pending ≠ []) :
    Diligent limit (d.write [.begins ls]) (.awaitingTransport (Cycle.plan ls)) :=
  ⟨h.made, hunique, .begins hp⟩

theorem beginsNothing {ls : List HubListener} {next : Stage} (hunique : Unique ls)
    (hp : (Cycle.plan ls).pending = []) (hnext : next.cycle? = none) :
    Diligent limit (d.write [.begins ls, .returns (.ok .empty)]) next := by
  refine ⟨?_, hnext⟩
  intro r hr
  rcases List.mem_append.mp hr with hr | hr
  · exact h.made r hr
  · rw [List.mem_singleton.mp hr]
    exact ⟨hunique, .beginsNothing hp⟩

end Diligent

structure Documented (s : System) : Prop where
  unique : s.hub.registry.Distinct
  diligent : ∀ id, Diligent (Retry.limit s.hub.settings.readRetries) (s.diary id)
    ((s.stage? id).getD .fresh)

theorem documented_start {hub : Hub} (h : hub.registry.Distinct) :
    ({ hub } : System).Documented := by
  refine ⟨h, ?_⟩
  intro id
  exact ⟨by simp [diary, deeds, Diary.write], rfl⟩

variable {s s' : System} {id : TaskId}

theorem Documented.turned (hd : s.Documented) {next stage : Stage} {cycleLock transport : Lock}
    {cache : Cache} {success : Bool} {deeds : List Deed}
    (h : Turned id s next cycleLock transport cache success deeds s')
    (hst : s.stage? id = some stage)
    (hnext : Diligent (Retry.limit s.hub.settings.readRetries) (s.diary id) stage →
      Diligent (Retry.limit s.hub.settings.readRetries) ((s.diary id).write deeds) next) :
    s'.Documented := by
  refine ⟨h.hub.distinct hd.unique, ?_⟩
  intro j
  have hsettings : s'.hub.settings = s.hub.settings := h.hub.settings
  rw [hsettings]
  have hj := hd.diligent j
  by_cases heq : j = id
  · subst heq
    rw [hst] at hj
    have hdiary : s'.diary j = (s.diary j).write deeds := by
      unfold diary
      rw [h.deeds_self, Diary.write_append]
    rw [h.stage, hdiary]
    exact hnext hj
  · have hdiary : s'.diary j = s.diary j := by
      unfold diary
      rw [h.deeds_other heq]
    rw [h.others j heq, hdiary]
    exact hj

theorem stageAfter_cycle? (job : Job) (result : RefreshResult) :
    (stageAfter job result).cycle? = none := by
  rcases stageAfter_cases job result with ⟨outcome, h⟩ | ⟨-, h⟩ <;> rw [h] <;> rfl

theorem toldAfter_plain (job : Job) (result : RefreshResult) (hub : Hub) :
    (toldAfter job result hub).all Deed.isPlain = true := by
  rcases toldAfter_calls job result hub with h | ⟨told, ls, h⟩ <;> rw [h] <;> rfl

-- The grammar of refreshes has a rule for each of those of the system that concern them.
theorem Documented.turn (hd : s.Documented) (ht : Turn id s s') : s'.Documented := by
  cases ht with
  | stays hs _ => exact hs ▸ hd
  | queues hjob hr hst hfrom h =>
      refine hd.turned h hst fun hold => hold.outside ?_ rfl rfl
      rcases hfrom with rfl | ⟨rfl, -⟩ <;> rfl
  | queuesWrite hjob hst hc h => exact hd.turned h hst fun hold => hold.outside rfl rfl rfl
  | declinesWrite hjob hst hc h => exact hd.turned h hst fun hold => hold.outside rfl rfl rfl
  | rests hjob hw hst hfrom h =>
      refine hd.turned h hst fun hold => hold.outside ?_ rfl rfl
      rcases hfrom with rfl | ⟨rfl, -⟩ <;> rfl
  | ends hjob hother hst hfrom h =>
      refine hd.turned h hst fun hold => hold.outside ?_ rfl rfl
      rcases hfrom with rfl | rfl <;> rfl
  | declines hjob hst hl hc h =>
      exact hd.turned h hst fun hold => hold.declines _ rfl (stageAfter_cycle? _ _)
  | beginsNothing hjob hst hl hc hp h =>
      exact hd.turned h hst fun hold => hold.beginsNothing hd.unique hp (stageAfter_cycle? _ _)
  | begins hst hl hc hp h =>
      exact hd.turned h hst fun hold => hold.begins hd.unique hp
  | asks hst hp hl hc h =>
      exact hd.turned h hst fun hold => hold.inside rfl rfl fun hgoing => hgoing.asks hp
  | @withdraws job cycle hub hjob hst hp hl hc hhub h =>
      refine hd.turned h hst fun hold => ?_
      exact hold.returns [.reserves _, .abandons, .calls hub cycle.waiting] rfl
        (stageAfter_cycle? _ _) rfl rfl fun hgoing => .withdraws hgoing
  | asksAgain hst hp hc hresult h =>
      exact hd.turned h hst fun hold => hold.inside rfl rfl fun hgoing =>
        hgoing.asksAgain hp hresult
  | settles hst hp hrest hc hobtains hhub h =>
      refine hd.turned h hst fun hold => hold.inside rfl ?_ fun hgoing => ?_
      · cases hobtains <;> rfl
      · exact hgoing.settles hp hrest hobtains
  | @settlesLast job cycle a watchers revision attempt due result cache offers stored hub hjob hst hp
      hc hobtains hhub h =>
      refine hd.turned h hst fun hold => ?_
      have hplain : (Deed.hears a result :: offers ++
          [Deed.settles a, Deed.calls hub (cycle.settle stored).2]).all Deed.isPlain = true := by
        cases hobtains <;> rfl
      have htold : ([] : List Deed).all Deed.isPlain = true := rfl
      have hreturns := hold.returns _ rfl
        (stageAfter_cycle? job (.ok (cycle.settle stored).1.result)) hplain htold
        fun hgoing => .settlesLast hgoing hp hobtains
      simpa using hreturns
  | @givesUp job cycle revision attempt due hub hjob hst hp hc hhub h =>
      refine hd.turned h hst fun hold => ?_
      exact hold.returns [.abandons, .calls hub cycle.waiting] rfl (stageAfter_cycle? _ _) rfl rfl
        fun hgoing => .givesUp hgoing
  | @fails job cycle a watchers rest revision attempt due e hub last hjob hst hp hc hresult hfound
      hhub hlast h =>
      refine hd.turned h hst fun hold => ?_
      exact hold.returns [.hears a (.error e), .abandons, .calls hub cycle.waiting] rfl
        (stageAfter_cycle? _ _) rfl (toldAfter_plain _ _ _)
        fun hgoing => .fails hgoing hp hresult hfound
  | sends hst hl h => exact hd.turned h hst fun hold => hold.outside rfl rfl rfl
  | refused hst h => exact hd.turned h hst fun hold => hold.outside rfl rfl rfl
  | @acknowledged a value ack revision hadData cache offers stored hub hst hobtains hhub h =>
      refine hd.turned h hst fun hold => hold.outside rfl rfl ?_
      cases hobtains <;> cases hadData <;> rfl

-- A drift that is ended has nothing to do with refreshes.
theorem Documented.aside (hd : s.Documented) (ho : s.Orderly) (h : Aside s s') :
    s'.Documented := by
  refine ⟨h.distinct hd.unique, ?_⟩
  intro j
  have hj := hd.diligent j
  have hdiary : s'.diary j = s.diary j := by
    unfold diary deeds
    rw [h.journal]
  rw [h.settings, hdiary]
  rcases h.stages j with hs | ⟨hs, hs'⟩ | ⟨⟨period, hjob⟩, hs'⟩
  · rw [hs]
    exact hj
  · rw [hs']
    rw [hs] at hj
    exact hj
  · have hstage : ((s.stage? j).getD .fresh).cycle? = none := by
      cases hs : s.stage? j with
      | none => rfl
      | some stage =>
          rcases (ho.fits j _ stage hjob hs).of_drift with rfl | rfl | ⟨outcome, rfl⟩ <;> rfl
    rw [hs']
    have hnone : ([] : List Deed).all Deed.isPlain = true := rfl
    exact hj.outside hstage rfl hnone

theorem Reachable.documented (h : s.Reachable) : s.Documented := by
  obtain ⟨settings, model, gateway, moves, rfl⟩ := h
  have hboth : ((fresh settings model gateway).play moves).Orderly ∧
      ((fresh settings model gateway).play moves).Documented := by
    apply play_induction (P := fun s => s.Orderly ∧ s.Documented)
    · rintro s m ⟨ho, hd⟩
      refine ⟨orderly_move s m ho, ?_⟩
      rcases move_cases s m with ⟨id, -, ht⟩ | ⟨-, ha⟩
      · exact hd.turn ht
      · exact hd.aside ho ha
    · exact ⟨orderly_start _, documented_start .nil⟩
  exact hboth.2

end System

end CoilHub
