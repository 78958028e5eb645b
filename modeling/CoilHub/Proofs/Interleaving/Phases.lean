import CoilHub.Proofs.Refresh.Calls

namespace CoilHub

-- Whether a write does such a thing.
def Deed.isOfWrite : Deed → Bool
  | .reserves _ | .sends _ _ | .receives _ _ | .offers _ _ _ _ | .calls _ _ => true
  | _ => false

-- How far a task is with a refresh.
inductive Phase
  | outside
  -- between two addresses
  | between
  -- at an address
  | amid
deriving DecidableEq

namespace Phase

-- What a deed makes of it, if the deed has its place there.
def next : Phase → Deed → Option Phase
  | .outside, .begins _ => some .between
  | .outside, .asks _ => none
  | .outside, _ => some .outside
  | .between, .begins _ => none
  | .between, .asks _ => some .amid
  | .between, .returns _ => some .outside
  | .between, _ => some .between
  | .amid, .begins _ => none
  | .amid, .returns _ => none
  | .amid, .calls _ _ => some .between
  | .amid, _ => some .amid

variable {p q : Phase} {deeds : List Deed}

-- A refresh is under way until it returns.
theorem under_way (h : deeds.foldlM next p = some q) (hp : p ≠ .outside)
    (hdeeds : ∀ result, .returns result ∉ deeds) : q ≠ .outside := by
  induction deeds generalizing p with
  | nil =>
      obtain rfl := Option.some.inj h
      exact hp
  | cons deed rest ih =>
      rw [List.foldlM_cons] at h
      obtain ⟨p', hnext, hrest⟩ := Option.bind_eq_some_iff.mp h
      refine ih hrest ?_ fun result hmem => hdeeds result (List.mem_cons_of_mem deed hmem)
      have hreturns : ∀ result, deed ≠ .returns result :=
        fun result heq => hdeeds result (heq ▸ List.mem_cons_self)
      cases p <;> cases deed <;> simp_all [next] <;> simp [← hnext]

-- It is at an address until it calls listeners.
theorem still_amid (h : deeds.foldlM next .amid = some q) (hdeeds : ∀ hub ls, .calls hub ls ∉ deeds) :
    q = .amid := by
  induction deeds with
  | nil => exact (Option.some.inj h).symm
  | cons deed rest ih =>
      rw [List.foldlM_cons] at h
      obtain ⟨p', hnext, hrest⟩ := Option.bind_eq_some_iff.mp h
      have hcalls : ∀ hub ls, deed ≠ .calls hub ls :=
        fun hub ls heq => hdeeds hub ls (heq ▸ List.mem_cons_self)
      have hsame : p' = .amid := by
        cases deed <;> simp_all [next]
      rw [hsame] at hrest
      exact ih hrest fun hub ls hmem => hdeeds hub ls (List.mem_cons_of_mem deed hmem)

end Phase

namespace Stage

-- How far a task that stands here is with a refresh.
def phase : Stage → Phase
  | .awaitingTransport _ => .between
  | .reading _ _ _ _ => .amid
  | _ => .outside

-- Whether a task that stands here has not done anything yet.
def isSilent : Stage → Bool
  | .fresh | .awaitingWrite _ _ => true
  | _ => false

end Stage

namespace System

variable {s s' : System} {id : TaskId}

-- What was done and by whom, in the order in which it was done.
def entries (s : System) : List (TaskId × Deed) := s.journal.reverse

-- What a single task did, in a part of the log.
def deedsIn (entries : List (TaskId × Deed)) (id : TaskId) : List Deed :=
  entries.filterMap fun entry => if entry.1 = id then some entry.2 else none

theorem deeds_eq (s : System) (id : TaskId) : s.deeds id = deedsIn s.entries id := by
  unfold deeds deedsIn entries
  rw [List.filterMap_reverse]

theorem mem_deedsIn {entries : List (TaskId × Deed)} {deed : Deed} :
    deed ∈ deedsIn entries id ↔ (id, deed) ∈ entries := by
  unfold deedsIn
  rw [List.mem_filterMap]
  constructor
  · rintro ⟨⟨j, deed'⟩, hmem, hown⟩
    split at hown
    case isTrue heq =>
      cases hown
      cases heq
      exact hmem
    case isFalse => cases hown
  · exact fun hmem => ⟨_, hmem, if_pos rfl⟩

theorem deedsIn_other {entries : List (TaskId × Deed)} {j : TaskId}
    (hentries : ∀ entry ∈ entries, entry.1 = id) (hj : j ≠ id) : deedsIn entries j = [] := by
  rw [List.eq_nil_iff_forall_not_mem]
  exact fun deed hmem => hj (hentries _ (mem_deedsIn.mp hmem))

theorem deedsIn_append (entries more : List (TaskId × Deed)) :
    deedsIn (entries ++ more) id = deedsIn entries id ++ deedsIn more id :=
  List.filterMap_append

theorem deedsIn_cons_self (deed : Deed) (entries : List (TaskId × Deed)) :
    deedsIn ((id, deed) :: entries) id = deed :: deedsIn entries id :=
  List.filterMap_cons_some (if_pos rfl)

theorem Turned.entries_eq {stage : Stage} {cycleLock transport : Lock} {cache : Cache}
    {success : Bool} {deeds : List Deed}
    (h : Turned id s stage cycleLock transport cache success deeds s') :
    s'.entries = s.entries ++ deeds.map fun deed => (id, deed) := by
  unfold entries
  rw [h.journal, List.reverse_append, List.reverse_reverse]

theorem Aside.entries_eq (h : Aside s s') : s'.entries = s.entries := by
  unfold entries
  rw [h.journal]

-- What a task may add to the log, by what it holds.
inductive Speaks (s : System) (id : TaskId) : List Deed → Prop
  | silent : Speaks s id []
  | bounds {job : Job} {deeds : List Deed} (hjob : s.job? id = some job)
    (hr : job.refreshes = true) (hl : s.cycleLock.holder = some id)
    (hdeeds : ∀ deed ∈ deeds, deed.isPlain = false) : Speaks s id deeds
  | reads {job : Job} {deeds : List Deed} (hjob : s.job? id = some job)
    (hr : job.refreshes = true) (hl : s.cycleLock.holder = some id)
    (ht : s.transport.holder = some id) : Speaks s id deeds
  | writes {a : Address} {value : CoilValue} {deeds : List Deed}
    (hjob : s.job? id = some (.write a value)) (ht : s.transport.holder = some id)
    (hst : ∀ outcome, s.stage? id ≠ some (.finished outcome))
    (hdeeds : ∀ deed ∈ deeds, deed.isOfWrite = true) : Speaks s id deeds

theorem Orderly.refreshes_of_cycle (ho : s.Orderly) {stage : Stage} {job : Job}
    (hjob : s.job? id = some job) (hst : s.stage? id = some stage)
    (hwants : stage.wantsCycle = true) : job.refreshes = true := by
  have hfit := ho.fits id job stage hjob hst
  cases stage with
  | awaitingCycle => exact hfit
  | awaitingTransport cycle => exact hfit.1
  | reading cycle revision attempt due => exact hfit.1
  | _ => cases hwants

theorem Turn.speaks (ho : s.Orderly) (ht : Turn id s s') :
    ∃ deeds, s'.entries = s.entries ++ deeds.map (fun deed => (id, deed)) ∧ Speaks s id deeds := by
  have hreads : ∀ {cycle revision attempt due deeds},
      s.stage? id = some (.reading cycle revision attempt due) → Speaks s id deeds := by
    intro cycle revision attempt due deeds hst
    obtain ⟨job, hjob⟩ := job?_of_stage? hst
    obtain ⟨hl, ht⟩ := ho.holder_of_reading hst
    exact .reads hjob (ho.refreshes_of_cycle hjob hst rfl) hl ht
  cases ht with
  | stays hs _ => exact ⟨[], by simp [hs], .silent⟩
  | queues hjob hr hst hfrom h => exact ⟨_, h.entries_eq, .silent⟩
  | queuesWrite hjob hst hc h => exact ⟨_, h.entries_eq, .silent⟩
  | declinesWrite hjob hst hc h => exact ⟨_, h.entries_eq, .silent⟩
  | rests hjob hw hst hfrom h => exact ⟨_, h.entries_eq, .silent⟩
  | ends hjob hother hst hfrom h => exact ⟨_, h.entries_eq, .silent⟩
  | declines hjob hst hl hc h =>
      exact ⟨_, h.entries_eq,
        .bounds hjob (ho.refreshes_of_cycle hjob hst rfl) hl (by simp [Deed.isPlain])⟩
  | beginsNothing hjob hst hl hc hp h =>
      exact ⟨_, h.entries_eq,
        .bounds hjob (ho.refreshes_of_cycle hjob hst rfl) hl (by simp [Deed.isPlain])⟩
  | begins hst hl hc hp h =>
      obtain ⟨job, hjob⟩ := job?_of_stage? hst
      exact ⟨_, h.entries_eq,
        .bounds hjob (ho.refreshes_of_cycle hjob hst rfl) hl (by simp [Deed.isPlain])⟩
  | asks hst hp hl hc h =>
      obtain ⟨job, hjob⟩ := job?_of_stage? hst
      exact ⟨_, h.entries_eq, .reads hjob (ho.refreshes_of_cycle hjob hst rfl)
        (ho.holder_of_awaitingTransport hst) hl⟩
  | withdraws hjob hst hp hl hc hhub h =>
      exact ⟨_, h.entries_eq, .reads hjob (ho.refreshes_of_cycle hjob hst rfl)
        (ho.holder_of_awaitingTransport hst) hl⟩
  | asksAgain hst hp hc hresult h => exact ⟨_, h.entries_eq, hreads hst⟩
  | settles hst hp hrest hc hobtains hhub h => exact ⟨_, h.entries_eq, hreads hst⟩
  | settlesLast hjob hst hp hc hobtains hhub h => exact ⟨_, h.entries_eq, hreads hst⟩
  | givesUp hjob hst hp hc hhub h => exact ⟨_, h.entries_eq, hreads hst⟩
  | fails hjob hst hp hc hresult hfound hhub hlast h => exact ⟨_, h.entries_eq, hreads hst⟩
  | sends hst hl h =>
      obtain ⟨job, hjob⟩ := job?_of_stage? hst
      obtain rfl := ho.fits id job _ hjob hst
      exact ⟨_, h.entries_eq, .writes hjob hl (by simp [hst]) (by simp [Deed.isOfWrite])⟩
  | refused hst h =>
      obtain ⟨job, hjob⟩ := job?_of_stage? hst
      obtain rfl := ho.fits id job _ hjob hst
      exact ⟨_, h.entries_eq, .writes hjob (ho.holder_of_writing hst) (by simp [hst])
        (by simp [Deed.isOfWrite])⟩
  | @acknowledged a value ack revision hadData cache offers stored hub hst hobtains hhub h =>
      obtain ⟨job, hjob⟩ := job?_of_stage? hst
      obtain rfl := ho.fits id job _ hjob hst
      refine ⟨_, h.entries_eq, .writes hjob (ho.holder_of_writing hst) (by simp [hst]) ?_⟩
      cases hobtains <;> cases hadData <;> simp [Deed.isOfWrite]

theorem move_speaks (ho : s.Orderly) (m : Move) :
    ∃ id deeds, (s.move m).entries = s.entries ++ deeds.map (fun deed => (id, deed)) ∧
      Speaks s id deeds := by
  rcases move_cases s m with ⟨id, -, ht⟩ | ⟨-, ha⟩
  · exact ⟨id, ht.speaks ho⟩
  · exact ⟨0, [], by simp [ha.entries_eq], .silent⟩

-- How the deeds of a task tell where it stands.
structure Audible (s : System) : Prop where
  silent : ∀ id, ((s.stage? id).getD .fresh).isSilent = true → s.deeds id = []
  phase : ∀ id, (s.deeds id).foldlM Phase.next .outside = some ((s.stage? id).getD .fresh).phase

theorem audible_start (hub : Hub) : ({ hub } : System).Audible :=
  ⟨fun _ _ => rfl, fun _ => rfl⟩

theorem Audible.turned (ha : s.Audible) {stage next : Stage} {cycleLock transport : Lock}
    {cache : Cache} {success : Bool} {deeds : List Deed}
    (h : Turned id s next cycleLock transport cache success deeds s')
    (hst : s.stage? id = some stage)
    (hsilent : next.isSilent = true → stage.isSilent = true ∧ deeds = [])
    (hphase : deeds.foldlM Phase.next stage.phase = some next.phase) : s'.Audible := by
  constructor
  · intro j hj
    by_cases heq : j = id
    · subst heq
      rw [h.stage] at hj
      obtain ⟨hold, hnone⟩ := hsilent hj
      have hdeeds := ha.silent j (by rw [hst]; exact hold)
      rw [h.deeds_self, hdeeds, hnone]
      rfl
    · rw [h.others j heq] at hj
      rw [h.deeds_other heq]
      exact ha.silent j hj
  · intro j
    by_cases heq : j = id
    · subst heq
      have hold := ha.phase j
      rw [hst, Option.getD_some] at hold
      rw [h.deeds_self, List.foldlM_append, hold, h.stage]
      exact hphase
    · rw [h.deeds_other heq, h.others j heq]
      exact ha.phase j

section

variable (job : Job) (result : RefreshResult)

theorem phase_stageAfter : (stageAfter job result).phase = .outside := by
  rcases stageAfter_cases job result with ⟨outcome, h⟩ | ⟨-, h⟩ <;> rw [h] <;> rfl

theorem stageAfter_not_silent {stage : Stage} {deeds : List Deed}
    (h : (stageAfter job result).isSilent = true) : stage.isSilent = true ∧ deeds = [] := by
  rcases stageAfter_cases job result with ⟨outcome, heq⟩ | ⟨-, heq⟩ <;> rw [heq] at h <;> cases h

end

theorem Audible.turn (ha : s.Audible) (ht : Turn id s s') : s'.Audible := by
  cases ht with
  | stays hs _ => exact hs ▸ ha
  | queues hjob hr hst hfrom h =>
      refine ha.turned h hst nofun ?_
      rcases hfrom with rfl | ⟨rfl, -⟩ <;> rfl
  | queuesWrite hjob hst hc h => exact ha.turned h hst (fun _ => ⟨rfl, rfl⟩) rfl
  | declinesWrite hjob hst hc h => exact ha.turned h hst nofun rfl
  | rests hjob hw hst hfrom h =>
      refine ha.turned h hst nofun ?_
      rcases hfrom with rfl | ⟨rfl, -⟩ <;> rfl
  | ends hjob hother hst hfrom h =>
      refine ha.turned h hst nofun ?_
      rcases hfrom with rfl | rfl <;> rfl
  | declines hjob hst hl hc h =>
      refine ha.turned h hst (stageAfter_not_silent _ _) ?_
      rw [phase_stageAfter]
      rfl
  | beginsNothing hjob hst hl hc hp h =>
      refine ha.turned h hst (stageAfter_not_silent _ _) ?_
      rw [phase_stageAfter]
      rfl
  | begins hst hl hc hp h => exact ha.turned h hst nofun rfl
  | asks hst hp hl hc h => exact ha.turned h hst nofun rfl
  | withdraws hjob hst hp hl hc hhub h =>
      refine ha.turned h hst (stageAfter_not_silent _ _) ?_
      rw [phase_stageAfter]
      rfl
  | asksAgain hst hp hc hresult h => exact ha.turned h hst nofun rfl
  | settles hst hp hrest hc hobtains hhub h =>
      refine ha.turned h hst nofun ?_
      cases hobtains <;> rfl
  | settlesLast hjob hst hp hc hobtains hhub h =>
      refine ha.turned h hst (stageAfter_not_silent _ _) ?_
      rw [phase_stageAfter]
      cases hobtains <;> rfl
  | givesUp hjob hst hp hc hhub h =>
      refine ha.turned h hst (stageAfter_not_silent _ _) ?_
      rw [phase_stageAfter]
      rfl
  | @fails job cycle a watchers rest revision attempt due e hub last hjob hst hp hc hresult hfound
      hhub hlast h =>
      refine ha.turned h hst (stageAfter_not_silent _ _) ?_
      rw [phase_stageAfter]
      rcases toldAfter_calls job (.error (.refreshFailed a e)) last with htold | ⟨told, ls, htold⟩ <;>
        rw [htold] <;> rfl
  | sends hst hl h => exact ha.turned h hst nofun rfl
  | refused hst h => exact ha.turned h hst nofun rfl
  | @acknowledged a value ack revision hadData cache offers stored hub hst hobtains hhub h =>
      refine ha.turned h hst nofun ?_
      cases hobtains <;> cases hadData <;> rfl

theorem Audible.aside (hs : s.Audible) (ho : s.Orderly) (ha : Aside s s') : s'.Audible := by
  have hdeeds : ∀ j, s'.deeds j = s.deeds j := by
    intro j
    unfold deeds
    rw [ha.journal]
  constructor
  · intro j hj
    rw [hdeeds]
    rcases ha.stages j with hsame | ⟨hnone, -⟩ | ⟨-, hfinished⟩
    · rw [hsame] at hj
      exact hs.silent j hj
    · exact hs.silent j (by rw [hnone]; rfl)
    · rw [hfinished] at hj
      cases hj
  · intro j
    rw [hdeeds, hs.phase j]
    rcases ha.stages j with hsame | ⟨hnone, hfresh⟩ | ⟨⟨period, hjob⟩, hfinished⟩
    · rw [hsame]
    · rw [hnone, hfresh]
      rfl
    · rw [hfinished]
      cases hst : s.stage? j with
      | none => rfl
      | some stage =>
          rcases (ho.fits j _ stage hjob hst).of_drift with rfl | rfl | ⟨outcome, rfl⟩ <;> rfl

theorem Reachable.audible (h : s.Reachable) : s.Audible := by
  apply h.induction
  · exact fun _ _ _ => audible_start _
  · intro s m hs ha
    rcases move_cases s m with ⟨id, -, ht⟩ | ⟨-, haside⟩
    · exact ha.turn ht
    · exact ha.aside hs.orderly haside

-- A task that is with a refresh before one of its deeds.
theorem Reachable.phase_before (hs : s.Reachable) {before rest : List (TaskId × Deed)} {deed : Deed}
    (h : s.entries = before ++ (id, deed) :: rest) :
    ∃ p q, (deedsIn before id).foldlM Phase.next .outside = some p ∧ p.next deed = some q ∧
      (deedsIn rest id).foldlM Phase.next q = some ((s.stage? id).getD .fresh).phase := by
  have hphase := hs.audible.phase id
  rw [deeds_eq, h, deedsIn_append, deedsIn_cons_self, List.foldlM_append] at hphase
  obtain ⟨p, hp, hphase⟩ := Option.bind_eq_some_iff.mp hphase
  rw [List.foldlM_cons] at hphase
  obtain ⟨q, hq, hrest⟩ := Option.bind_eq_some_iff.mp hphase
  exact ⟨p, q, hp, hq, hrest⟩

theorem Phase.next_begins {p q : Phase} {ls : List HubListener} (h : p.next (.begins ls) = some q) :
    p = .outside ∧ q = .between := by
  cases p <;> simp_all [Phase.next]

theorem Phase.next_asks {p q : Phase} {a : Address} (h : p.next (.asks a) = some q) :
    p ≠ .outside ∧ q = .amid := by
  cases p with
  | outside => cases h
  | between => exact ⟨by decide, (Option.some.inj h).symm⟩
  | amid => exact ⟨by decide, (Option.some.inj h).symm⟩

-- A task that began a refresh and has not returned from it holds the cycle lock.
theorem Reachable.holds_cycle (hs : s.Reachable) {before rest : List (TaskId × Deed)}
    {ls : List HubListener} (h : s.entries = before ++ (id, .begins ls) :: rest)
    (hrest : ∀ result, (id, .returns result) ∉ rest) : s.cycleLock.holder = some id := by
  obtain ⟨p, q, -, hq, hlast⟩ := hs.phase_before h
  obtain ⟨-, rfl⟩ := Phase.next_begins hq
  have hphase := Phase.under_way hlast (by decide) fun result hmem =>
    hrest result (mem_deedsIn.mp hmem)
  cases hst : s.stage? id with
  | none => simp [hst, Stage.phase] at hphase
  | some stage =>
      rw [hst] at hphase
      cases stage with
      | awaitingTransport cycle => exact hs.orderly.holder_of_awaitingTransport hst
      | reading cycle revision attempt due => exact (hs.orderly.holder_of_reading hst).1
      | _ => exact absurd rfl hphase

-- A task that made an attempt at an address and has called nobody since then holds both locks.
theorem Reachable.holds_both (hs : s.Reachable) {before rest : List (TaskId × Deed)} {a : Address}
    (h : s.entries = before ++ (id, .asks a) :: rest)
    (hrest : ∀ hub ls, (id, .calls hub ls) ∉ rest) :
    s.cycleLock.holder = some id ∧ s.transport.holder = some id := by
  obtain ⟨p, q, -, hq, hlast⟩ := hs.phase_before h
  obtain ⟨-, rfl⟩ := Phase.next_asks hq
  have hphase := Phase.still_amid hlast fun hub ls hmem => hrest hub ls (mem_deedsIn.mp hmem)
  cases hst : s.stage? id with
  | none => simp [hst, Stage.phase] at hphase
  | some stage =>
      rw [hst] at hphase
      cases stage with
      | reading cycle revision attempt due => exact hs.orderly.holder_of_reading hst
      | _ => cases hphase

theorem Phase.before_next {p q : Phase} {deed : Deed} (h : p.next deed = some q)
    (hq : q ≠ .outside) :
    (∃ ls, deed = .begins ls) ∨ p ≠ .outside ∧ ∀ result, deed ≠ .returns result := by
  cases p <;> cases deed <;> simp_all [Phase.next]

-- A task that is with a refresh has begun it.
theorem begun_of_phase {entries : List (TaskId × Deed)} {p : Phase}
    (h : (deedsIn entries id).foldlM Phase.next .outside = some p) (hp : p ≠ .outside) :
    ∃ first ls last, entries = first ++ (id, .begins ls) :: last ∧
      ∀ result, (id, .returns result) ∉ last := by
  induction entries using List.reverseRecOn generalizing p with
  | nil => exact absurd (Option.some.inj h).symm hp
  | append_singleton entries entry ih =>
      obtain ⟨j, deed⟩ := entry
      rw [deedsIn_append, List.foldlM_append] at h
      obtain ⟨p', hp', hlast⟩ := Option.bind_eq_some_iff.mp h
      have hstill : p' ≠ .outside → (j = id → ∀ result, deed ≠ .returns result) →
          ∃ first ls last, entries ++ [(j, deed)] = first ++ (id, .begins ls) :: last ∧
            ∀ result, (id, .returns result) ∉ last := by
        intro hne hreturns
        obtain ⟨first, ls, last, rfl, hrest⟩ := ih hp' hne
        refine ⟨first, ls, last ++ [(j, deed)], by simp, ?_⟩
        intro result hmem
        rcases List.mem_append.mp hmem with hmem | hmem
        · exact hrest result hmem
        · rw [List.mem_singleton] at hmem
          injection hmem with hj hdeed
          exact hreturns hj.symm result hdeed.symm
      by_cases hj : j = id
      · subst hj
        rw [deedsIn_cons_self, List.foldlM_cons] at hlast
        obtain ⟨q, hq, hend⟩ := Option.bind_eq_some_iff.mp hlast
        obtain rfl : q = p := Option.some.inj hend
        rcases Phase.before_next hq hp with ⟨ls, rfl⟩ | ⟨hne, hreturns⟩
        · exact ⟨entries, ls, [], rfl, fun result hmem => List.not_mem_nil hmem⟩
        · exact hstill hne fun _ => hreturns
      · have hsilent : deedsIn [(j, deed)] id = [] :=
          deedsIn_other (fun entry hmem => congrArg Prod.fst (List.mem_singleton.mp hmem))
            (Ne.symm hj)
        rw [hsilent] at hlast
        obtain rfl : p' = p := Option.some.inj hlast
        exact hstill hp fun heq => absurd heq hj

-- Every read attempt is part of a refresh.
theorem Reachable.asks_within (hs : s.Reachable) {before after : List (TaskId × Deed)} {a : Address}
    (h : s.entries = before ++ (id, .asks a) :: after) :
    ∃ first ls last, before = first ++ (id, .begins ls) :: last ∧
      ∀ result, (id, .returns result) ∉ last := by
  obtain ⟨p, q, hp, hq, -⟩ := hs.phase_before h
  exact begun_of_phase hp (Phase.next_asks hq).1

end System

end CoilHub
