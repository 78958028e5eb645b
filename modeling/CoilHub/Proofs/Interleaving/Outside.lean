import CoilHub.Proofs.Interleaving.Turn

namespace CoilHub

namespace System

theorem tasks_spawn (s : System) (job : Job) (id : TaskId) :
    (s.spawn job).tasks[id]? = if id = s.tasks.length then some { job } else s.tasks[id]? := by
  show (s.tasks ++ [({ job } : Task)])[id]? = _
  rw [List.getElem?_append]
  by_cases hlt : id < s.tasks.length
  · simp [hlt, Nat.ne_of_lt hlt]
  · by_cases heq : id = s.tasks.length
    · simp [heq]
    · have hge : s.tasks.length ≤ id := Nat.le_of_not_lt hlt
      have hpos : id - s.tasks.length ≠ 0 := fun h =>
        heq (Nat.le_antisymm (Nat.sub_eq_zero_iff_le.mp h) hge)
      simp [hlt, heq, hpos]

theorem stage?_spawn (s : System) (job : Job) (id : TaskId) :
    (s.spawn job).stage? id = if id = s.tasks.length then some .fresh else s.stage? id := by
  unfold stage?
  rw [tasks_spawn]
  split <;> rfl

theorem job?_spawn (s : System) (job : Job) (id : TaskId) :
    (s.spawn job).job? id = if id = s.tasks.length then some job else s.job? id := by
  unfold job?
  rw [tasks_spawn]
  split <;> rfl

theorem stage?_length (s : System) : s.stage? s.tasks.length = none := by
  simp [stage?]

theorem job?_length (s : System) : s.job? s.tasks.length = none := by
  simp [job?]

-- What a move that is no step leaves alone.
structure Aside (s s' : System) : Prop where
  stages : ∀ id, s'.stage? id = s.stage? id ∨
    s.stage? id = none ∧ s'.stage? id = some .fresh ∨
    (∃ period, s.job? id = some (.drift period)) ∧ s'.stage? id = some (.finished (.ok .stopped))
  jobs : ∀ id job, s.job? id = some job → s'.job? id = some job
  cycleLock : s'.cycleLock = s.cycleLock
  transport : s'.transport = s.transport
  journal : s'.journal = s.journal
  settings : s'.hub.settings = s.hub.settings
  cache : s'.hub.cache = s.hub.cache
  success : s'.hub.lastSuccess = s.hub.lastSuccess
  cancelled : s.hub.cancelled = true → s'.hub.cancelled = true
  displays : s.hub.displays.length ≤ s'.hub.displays.length
  distinct : s.hub.registry.Distinct → s'.hub.registry.Distinct
  seated : s.hub.Seated → s'.hub.Seated

theorem Aside.mapHub {s : System} (f : Hub → Hub) (h : s.hub.Kept (f s.hub)) :
    Aside s (s.mapHub f) where
  stages := fun _ => .inl rfl
  jobs := fun _ _ h => h
  cycleLock := rfl
  transport := rfl
  journal := rfl
  settings := h.settings
  cache := h.cache
  success := h.success
  cancelled := h.cancelled
  displays := h.displays
  distinct := h.distinct
  seated := h.seated

theorem spawn_aside (s : System) (job : Job) : Aside s (s.spawn job) where
  stages := by
    intro id
    rw [stage?_spawn]
    by_cases hid : id = s.tasks.length
    · subst hid
      exact .inr (.inl ⟨s.stage?_length, by simp⟩)
    · simp [hid]
  jobs := by
    intro id job' hjob
    rw [job?_spawn]
    by_cases hid : id = s.tasks.length
    · rw [hid, job?_length] at hjob
      cases hjob
    · simpa [hid] using hjob
  cycleLock := rfl
  transport := rfl
  journal := rfl
  settings := rfl
  cache := rfl
  success := rfl
  cancelled := id
  displays := Nat.le_refl _
  distinct := fun h => h
  seated := fun h => h

theorem stop_aside {s : System} {id : TaskId} {period : Nat}
    (hjob : s.job? id = some (.drift period)) : Aside s (s.stop id) where
  stages := by
    intro j
    by_cases hj : j = id
    · subst hj
      obtain ⟨t, ht, -⟩ := Option.map_eq_some_iff.mp hjob
      exact .inr (.inr ⟨⟨period, hjob⟩, by simp [stop, finish, setStage, stage?_mapTask, ht]⟩)
    · exact .inl (by simp [stop, finish, setStage, stage?_mapTask, Ne.symm hj])
  jobs := by
    intro j job hjob
    rw [← hjob]
    exact job?_mapTask s id j _ fun _ => rfl
  cycleLock := rfl
  transport := rfl
  journal := rfl
  settings := rfl
  cache := rfl
  success := rfl
  cancelled := fun h => h
  displays := Nat.le_refl _
  distinct := fun h => h
  seated := fun h => h

theorem Aside.refl (s : System) : Aside s s := .mapHub (fun hub => hub) (.refl s.hub)

theorem move_aside (s : System) (m : Move) (hm : ∀ id, m ≠ .step id) : Aside s (s.move m) := by
  cases m with
  | step id => exact absurd rfl (hm id)
  | spawn job => exact spawn_aside s job
  | stop id =>
      simp only [move]
      split
      case h_1 period hjob => exact stop_aside hjob
      case h_2 => exact .refl s
  | act action => exact Aside.mapHub (s := s) (·.act action) (Hub.kept_act s.hub action)
  | attach coil =>
      exact Aside.mapHub (s := s) (fun hub => (Entity.attach hub coil).2) (Hub.kept_attach s.hub coil)
  | detach e =>
      exact ⟨fun _ => .inl rfl, fun _ _ h => h, rfl, rfl, rfl, rfl, rfl, rfl, fun h => h,
        Nat.le_refl _, fun h => Registry.distinct_deregister h _,
        fun h m hm => h m (List.mem_filter.mp hm).1⟩
  | gateway g =>
      exact Aside.mapHub (s := s) (fun hub => { hub with gateway := g })
        (.of_eq rfl rfl rfl rfl rfl rfl rfl)
  | nesting depth =>
      exact ⟨fun _ => .inl rfl, fun _ _ h => h, rfl, rfl, rfl, rfl, rfl, rfl, fun h => h,
        Nat.le_refl _, fun h => h, fun h => h⟩
  | wait duration =>
      exact ⟨fun _ => .inl rfl, fun _ _ h => h, rfl, rfl, rfl, rfl, rfl, rfl, fun h => h,
        Nat.le_refl _, fun h => h, fun h => h⟩
  | rouse woken =>
      exact Aside.mapHub (s := s) (fun hub => { hub with woken })
        (.of_eq rfl rfl rfl rfl rfl rfl rfl)
  | forget =>
      exact Aside.mapHub (s := s) (fun hub => { hub with history := [] })
        (.of_eq rfl rfl rfl rfl rfl rfl rfl)

-- A move is a turn of a task or leaves the tasks alone.
theorem move_cases (s : System) (m : Move) :
    (∃ id, m = .step id ∧ Turn id s (s.move m)) ∨
      (∀ id, m ≠ .step id) ∧ Aside s (s.move m) := by
  by_cases hm : ∃ id, m = .step id
  · obtain ⟨id, rfl⟩ := hm
    exact .inl ⟨id, rfl, step_turn s id⟩
  · have hm : ∀ id, m ≠ .step id := fun id h => hm ⟨id, h⟩
    exact .inr ⟨hm, move_aside s m hm⟩

theorem Reachable.seated {s : System} (h : s.Reachable) : s.hub.Seated := by
  obtain ⟨settings, model, gateway, moves, rfl⟩ := h
  apply play_induction (P := fun s => s.hub.Seated)
  · intro s m hs
    rcases move_cases s m with ⟨id, -, ht⟩ | ⟨-, ha⟩
    · rcases ht.turned with heq | ⟨stage, cycleLock, transport, cache, success, deeds, h⟩
      · rwa [heq]
      · exact h.hub.seated hs
    · exact ha.seated hs
  · exact nofun

theorem Turn.log_eq {s s' : System} {id : TaskId} (ht : Turn id s s') :
    ∃ deeds, s'.log = s.log ++ deeds := by
  rcases ht.turned with hs | ⟨stage, cycleLock, transport, cache, success, deeds, h⟩
  · exact ⟨[], by rw [hs, List.append_nil]⟩
  · exact ⟨deeds, h.log_eq⟩

theorem log_move (s : System) (m : Move) : ∃ deeds, (s.move m).log = s.log ++ deeds := by
  rcases move_cases s m with ⟨id, -, ht⟩ | ⟨-, ha⟩
  · exact ht.log_eq
  · exact ⟨[], by rw [log_of_journal_eq ha.journal, List.append_nil]⟩

theorem job?_move {s : System} {id : TaskId} {job : Job} (h : s.job? id = some job) (m : Move) :
    (s.move m).job? id = some job := by
  rcases move_cases s m with ⟨j, -, ht⟩ | ⟨-, ha⟩
  · rcases ht.turned with heq | ⟨stage, cycleLock, transport, cache, success, deeds, hturned⟩
    · rw [heq]
      exact h
    · rw [hturned.jobs]
      exact h
  · exact ha.jobs id job h

theorem job?_play {s : System} {id : TaskId} {job : Job} (h : s.job? id = some job)
    (moves : List Move) : (s.play moves).job? id = some job :=
  play_induction (P := fun s => s.job? id = some job) (fun _ m h => job?_move h m) moves h

theorem log_play (s : System) (moves : List Move) :
    ∃ deeds, (s.play moves).log = s.log ++ deeds := by
  induction moves generalizing s with
  | nil => exact ⟨[], by simp⟩
  | cons m rest ih =>
      obtain ⟨deeds, hdeeds⟩ := log_move s m
      obtain ⟨more, hmore⟩ := ih (s.move m)
      exact ⟨deeds ++ more, by rw [play_cons, hmore, hdeeds, List.append_assoc]⟩

theorem Aside.deedsSince_eq {s t : System} (h : Aside s t) : deedsSince s t = [] :=
  deedsSince_of_journal_eq h.journal

theorem deedsSince_play_cons (s : System) (m : Move) (rest : List Move) :
    deedsSince s (s.play (m :: rest)) =
      deedsSince s (s.move m) ++ deedsSince (s.move m) (s.play (m :: rest)) := by
  obtain ⟨deeds, hdeeds⟩ := log_move s m
  obtain ⟨more, hmore⟩ := log_play (s.move m) rest
  have hboth : (s.play (m :: rest)).log = s.log ++ (deeds ++ more) := by
    rw [play_cons, hmore, hdeeds, List.append_assoc]
  rw [deedsSince_of_log_eq hboth, deedsSince_of_log_eq hdeeds, play_cons, deedsSince_of_log_eq hmore]

end System

end CoilHub
