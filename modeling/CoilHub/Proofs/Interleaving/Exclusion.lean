import CoilHub.Proofs.Interleaving.Phases

namespace CoilHub.System

variable {s s' : System} {id : TaskId}

-- Whatever a task begins with one of its deeds, until it ends that, the entries of other tasks are of
-- a certain kind.
def Meanwhile (start stop : Deed → Prop) (others : TaskId × Deed → Prop) (id : TaskId)
    (s : System) : Prop :=
  ∀ before middle after deed entry, s.entries = before ++ (id, deed) :: (middle ++ entry :: after) →
    start deed → (∀ last, stop last → (id, last) ∉ middle) → entry.1 = id ∨ others entry

-- It is enough to look at what others may say while the end is still to come.
theorem Reachable.meanwhile {start stop : Deed → Prop} (others : System → TaskId × Deed → Prop)
    (hothers : ∀ s m entry, others s entry → others (s.move m) entry)
    (hspeaks : ∀ (s : System) before deed rest j deeds, s.Reachable →
      s.entries = before ++ (id, deed) :: rest → start deed →
      (∀ last, stop last → (id, last) ∉ rest) → j ≠ id → Speaks s j deeds →
      ∀ deed ∈ deeds, others s (j, deed))
    (hs : s.Reachable) : Meanwhile start stop (others s) id s := by
  apply hs.induction (P := fun s => Meanwhile start stop (others s) id s)
  · intro settings model gateway before middle after deed entry h
    simp [entries, fresh] at h
  · intro s m hs ih before middle after deed entry h hstart hstop
    obtain ⟨j, deeds, hentries, hj⟩ := move_speaks hs.orderly m
    have hnew : ∀ entry ∈ deeds.map (fun deed => (j, deed)), entry.1 = j ∧ entry.2 ∈ deeds := by
      simp
    rw [hentries] at h
    rcases split_append h with ⟨rest, hold, hrest⟩ | ⟨first, -, hmore⟩
    · rcases split_append hrest.symm with ⟨rest', hrest', -⟩ | ⟨first, hmiddle, hmore⟩
      · rw [hrest'] at hold
        exact (ih before middle rest' deed entry hold hstart hstop).imp_right (hothers s m entry)
      · obtain ⟨hown, hdeed⟩ := hnew entry (by rw [hmore]; simp)
        by_cases heq : j = id
        · exact .inl (hown.trans heq)
        · have hopen : ∀ last, stop last → (id, last) ∉ rest := by
            intro last hlast hmem
            exact hstop last hlast (by rw [hmiddle]; exact List.mem_append_left _ hmem)
          have hkind := hspeaks s before deed rest j deeds hs hold hstart hopen heq hj _ hdeed
          rw [← hown] at hkind
          exact .inr (hothers s m entry hkind)
    · have hfirst := (hnew (id, deed) (by rw [hmore]; simp)).1
      have hentry := (hnew entry (by rw [hmore]; simp)).1
      exact .inl (hentry.trans hfirst.symm)

-- Whether an entry is one that a write makes.
def OfWrite (s : System) (entry : TaskId × Deed) : Prop :=
  entry.2.isOfWrite = true ∧ ∃ a value, s.job? entry.1 = some (.write a value)

-- While a refresh is under way, only writes get a word in.
theorem Reachable.during_cycle (hs : s.Reachable) :
    Meanwhile (∃ ls, · = .begins ls) (∃ result, · = .returns result) s.OfWrite id s := by
  apply hs.meanwhile OfWrite
  · rintro s m entry ⟨hdeed, a, value, hjob⟩
    exact ⟨hdeed, a, value, job?_move hjob m⟩
  · rintro s before _ rest j deeds hs h ⟨ls, rfl⟩ hopen hne hj deed hdeed
    have hl := hs.holds_cycle h fun result => hopen _ ⟨result, rfl⟩
    have hother : s.cycleLock.holder ≠ some j := by
      rw [hl]
      exact fun heq => hne (Option.some.inj heq).symm
    cases hj with
    | silent => cases hdeed
    | bounds hjob hr hl' => exact absurd hl' hother
    | reads hjob hr hl' => exact absurd hl' hother
    | writes hjob ht hst hdeeds => exact ⟨hdeeds deed hdeed, _, _, hjob⟩

-- While a refresh is at an address, nobody does.
theorem Reachable.during_step (hs : s.Reachable) :
    Meanwhile (∃ a, · = .asks a) (∃ hub ls, · = .calls hub ls) (fun _ => False) id s := by
  apply hs.meanwhile fun _ _ => False
  · exact fun _ _ _ h => h
  · rintro s before _ rest j deeds hs h ⟨a, rfl⟩ hopen hne hj deed hdeed
    obtain ⟨hl, ht⟩ := hs.holds_both h fun hub ls => hopen _ ⟨hub, ls, rfl⟩
    have hother : ∀ {holder}, holder = some id → holder ≠ some j := by
      rintro _ rfl heq
      exact hne (Option.some.inj heq).symm
    cases hj with
    | silent => cases hdeed
    | bounds hjob hr hl' => exact hother hl hl'
    | reads hjob hr hl' => exact hother hl hl'
    | writes hjob ht' => exact hother ht ht'

-- A write that has done anything has sent its value, and is done unless it still has the transport.
theorem Reachable.write_stage (hs : s.Reachable) {a : Address} {value : CoilValue}
    (hjob : s.job? id = some (.write a value)) (hdeeds : s.deeds id ≠ []) :
    s.transport.holder = some id ∨ ∃ outcome, s.stage? id = some (.finished outcome) := by
  have hspoken : ((s.stage? id).getD .fresh).isSilent ≠ true :=
    fun hsilent => hdeeds (hs.audible.silent id hsilent)
  cases hst : s.stage? id with
  | none => exact absurd (by rw [hst]; rfl) hspoken
  | some stage =>
      have hfit := hs.orderly.fits id _ stage hjob hst
      rw [hst] at hspoken
      cases stage with
      | fresh => exact absurd rfl hspoken
      | awaitingWrite a value => exact absurd rfl hspoken
      | writing a value revision hadData => exact .inl (hs.orderly.holder_of_writing hst)
      | finished outcome => exact .inr ⟨outcome, rfl⟩
      | awaitingCycle => cases hfit
      | awaitingTransport cycle => cases hfit.1
      | reading cycle revision attempt due => cases hfit.1
      | idle => cases hfit

theorem finished_move {outcome : Outcome} {a : Address} {value : CoilValue}
    (hjob : s.job? id = some (.write a value)) (hst : s.stage? id = some (.finished outcome))
    (m : Move) : (s.move m).stage? id = some (.finished outcome) := by
  rcases move_cases s m with ⟨j, hm, ht⟩ | ⟨-, ha⟩
  · by_cases hj : id = j
    · obtain ⟨t, ht', hstage⟩ := Option.map_eq_some_iff.mp hst
      have hoff : s.enabled id = false := by simp [enabled, ht', hstage]
      have hsame : s.move m = s := by
        rw [hm, ← hj]
        exact step_of_not_enabled hoff
      rw [hsame]
      exact hst
    · rcases ht.turned with heq | ⟨stage, cycleLock, transport, cache, success, deeds, h⟩
      · rw [heq]
        exact hst
      · exact (h.others id hj).trans hst
  · rcases ha.stages id with hsame | ⟨hnone, -⟩ | ⟨⟨period, hperiod⟩, -⟩
    · exact hsame.trans hst
    · rw [hst] at hnone
      cases hnone
    · rw [hjob] at hperiod
      cases hperiod

theorem Reachable.job?_of_deeds (hs : s.Reachable) (hdeeds : s.deeds id ≠ []) (m : Move)
    {job : Job} (hjob : (s.move m).job? id = some job) : s.job? id = some job := by
  have hstage : s.stage? id ≠ none := by
    intro hnone
    exact hdeeds (hs.audible.silent id (by rw [hnone]; rfl))
  obtain ⟨stage, hst⟩ := Option.ne_none_iff_exists'.mp hstage
  obtain ⟨old, hold⟩ := job?_of_stage? hst
  have hsame := job?_move hold m
  rw [hjob] at hsame
  rw [hold, Option.some.inj hsame]

-- A write does nothing else.
theorem Reachable.of_write (hs : s.Reachable) {a : Address} {value : CoilValue} {deed : Deed}
    (hjob : s.job? id = some (.write a value)) (hmem : (id, deed) ∈ s.entries) :
    deed.isOfWrite = true := by
  have hall : ∀ id a value deed, s.job? id = some (.write a value) → (id, deed) ∈ s.entries →
      deed.isOfWrite = true := by
    apply hs.induction (P := fun s => ∀ id a value deed, s.job? id = some (.write a value) →
      (id, deed) ∈ s.entries → deed.isOfWrite = true)
    · intro settings model gateway id a value deed hjob
      cases hjob
    · intro s m hs ih id a value deed hjob hmem
      obtain ⟨k, deeds, hentries, hk⟩ := move_speaks hs.orderly m
      rw [hentries] at hmem
      rcases List.mem_append.mp hmem with hold | hnew
      · have hdeeds : s.deeds id ≠ [] := by
          rw [deeds_eq]
          exact List.ne_nil_of_mem (mem_deedsIn.mpr hold)
        exact ih id a value deed (hs.job?_of_deeds hdeeds m hjob) hold
      · obtain ⟨deed, hdeed, hpair⟩ := List.mem_map.mp hnew
        cases hpair
        cases hk with
        | silent => cases hdeed
        | bounds hjob' hr =>
            rw [job?_move hjob' m] at hjob
            cases hjob
            cases hr
        | reads hjob' hr =>
            rw [job?_move hjob' m] at hjob
            cases hjob
            cases hr
        | writes hjob' ht hst hdeeds => exact hdeeds deed hdeed
  exact hall id a value deed hjob hmem

-- Before a read attempt each write has done nothing or everything.
def WritesApart (s : System) : Prop :=
  ∀ before after i b j a value, s.entries = before ++ (i, .asks b) :: after →
    s.job? j = some (.write a value) → deedsIn before j ≠ [] →
    (∃ outcome, s.stage? j = some (.finished outcome)) ∧ deedsIn after j = []

theorem Reachable.writesApart (hs : s.Reachable) : s.WritesApart := by
  apply hs.induction
  · intro settings model gateway before after i b j a value h
    simp [entries, fresh] at h
  · intro s m hs ih before after i b j a value h hjob hbefore
    obtain ⟨k, deeds, hentries, hk⟩ := move_speaks hs.orderly m
    have hnew : ∀ entry ∈ deeds.map (fun deed => (k, deed)), entry.1 = k ∧ entry.2 ∈ deeds := by
      simp
    rw [hentries] at h
    rcases split_append h with ⟨rest, hold, rfl⟩ | ⟨first, rfl, hmore⟩
    · -- the attempt was made before this move, and the write has ended long since
      have hdeeds : s.deeds j ≠ [] := by
        rw [deeds_eq, hold, deedsIn_append]
        exact fun hnil => hbefore (List.append_eq_nil_iff.mp hnil).1
      have hjob' := hs.job?_of_deeds hdeeds m hjob
      obtain ⟨⟨outcome, hst⟩, hrest⟩ := ih before rest i b j a value hold hjob' hbefore
      refine ⟨⟨outcome, finished_move hjob' hst m⟩, ?_⟩
      rw [deedsIn_append, hrest, List.nil_append]
      by_cases heq : j = k
      · subst heq
        cases hk with
        | silent => rfl
        | bounds hjob'' hr =>
            rw [hjob'] at hjob''
            cases hjob''
            cases hr
        | reads hjob'' hr =>
            rw [hjob'] at hjob''
            cases hjob''
            cases hr
        | writes hjob'' ht hrunning => exact absurd hst (hrunning outcome)
      · exact deedsIn_other (fun entry hmem => (hnew entry hmem).1) heq
    · -- the attempt is made by this move, so the write does not have the transport
      obtain ⟨rfl, hasks⟩ : i = k ∧ .asks b ∈ deeds := hnew (i, .asks b) (by rw [hmore]; simp)
      have hholds : (∃ job, s.job? i = some job ∧ job.refreshes = true) ∧
          s.transport.holder = some i := by
        cases hk with
        | silent => cases hasks
        | bounds hjob' hr hl hdeeds => cases hdeeds _ hasks
        | reads hjob' hr hl ht => exact ⟨⟨_, hjob', hr⟩, ht⟩
        | writes hjob' ht hst hdeeds => cases hdeeds _ hasks
      obtain ⟨⟨job, hjobi, hr⟩, ht⟩ := hholds
      have hne : j ≠ i := by
        rintro rfl
        rw [job?_move hjobi m] at hjob
        cases hjob
        cases hr
      have hfirst : deedsIn first j = [] := deedsIn_other
        (fun entry hmem => (hnew entry (by rw [hmore]; exact List.mem_append_left _ hmem)).1) hne
      have hafter : deedsIn after j = [] := deedsIn_other
        (fun entry hmem => (hnew entry (by rw [hmore]; simp [hmem])).1) hne
      rw [deedsIn_append, hfirst, List.append_nil, ← deeds_eq] at hbefore
      have hjob' := hs.job?_of_deeds hbefore m hjob
      rcases hs.write_stage hjob' hbefore with hholder | ⟨outcome, hst⟩
      · rw [ht] at hholder
        exact absurd (Option.some.inj hholder).symm hne
      · exact ⟨⟨outcome, finished_move hjob' hst m⟩, hafter⟩

-- The entries from the beginning of a refresh on, up to its return at most.
structure CycleSpan (id : TaskId) (span : List (TaskId × Deed)) : Prop where
  first : ∃ ls, span.head? = some (id, .begins ls)
  goesOn : ∀ result, (id, .returns result) ∉ span.dropLast

-- The entries from an attempt at an address on, up to the call of listeners at most that settles the
-- address or gives the refresh up.
structure StepSpan (id : TaskId) (span : List (TaskId × Deed)) : Prop where
  first : ∃ a, span.head? = some (id, .asks a)
  goesOn : ∀ hub ls, (id, .calls hub ls) ∉ span.dropLast

-- What holds meanwhile holds all over such a span.
theorem Meanwhile.of_span {start stop : Deed → Prop} {others : TaskId × Deed → Prop}
    (hmeanwhile : Meanwhile start stop others id s) {before span after : List (TaskId × Deed)}
    {deed : Deed} (h : s.entries = before ++ span ++ after) (hfirst : span.head? = some (id, deed))
    (hstart : start deed) (hstop : ∀ last, stop last → (id, last) ∉ span.dropLast) :
    ∀ entry ∈ span, entry.1 = id ∨ others entry := by
  obtain ⟨rest, rfl⟩ := List.head?_eq_some_iff.mp hfirst
  intro entry hmem
  rcases List.mem_cons.mp hmem with rfl | hmem
  · exact .inl rfl
  · obtain ⟨middle, last, rfl⟩ := List.append_of_mem hmem
    apply hmeanwhile before middle (last ++ after) deed entry (by simpa using h) hstart
    intro last' hlast hmem
    refine hstop last' hlast ?_
    rw [List.dropLast_cons_of_ne_nil (by simp), List.dropLast_append_of_ne_nil (by simp)]
    exact List.mem_cons_of_mem _ (List.mem_append_left _ hmem)

theorem Reachable.begins_once (hs : s.Reachable) {before middle after : List (TaskId × Deed)}
    {ls ls' : List HubListener}
    (h : s.entries = before ++ (id, .begins ls) :: (middle ++ (id, .begins ls') :: after)) :
    ∃ result, (id, .returns result) ∈ middle := by
  obtain ⟨p, q, -, hq, hlast⟩ := hs.phase_before h
  obtain ⟨-, rfl⟩ := Phase.next_begins hq
  rw [deedsIn_append, List.foldlM_append] at hlast
  obtain ⟨p', hp', hlast⟩ := Option.bind_eq_some_iff.mp hlast
  rw [deedsIn_cons_self, List.foldlM_cons] at hlast
  obtain ⟨q', hq', -⟩ := Option.bind_eq_some_iff.mp hlast
  obtain ⟨rfl, -⟩ := Phase.next_begins hq'
  by_contra hnone
  exact Phase.under_way hp' (by decide)
    (fun result hmem => hnone ⟨result, mem_deedsIn.mp hmem⟩) rfl

-- A refresh that begins after another one begins after the end of that one.
theorem Reachable.cycles_apart (hs : s.Reachable) {i j : TaskId}
    {before span after before' span' after' : List (TaskId × Deed)}
    (h : s.entries = before ++ span ++ after) (hspan : CycleSpan i span)
    (h' : s.entries = before' ++ span' ++ after') (hspan' : CycleSpan j span')
    (hlt : before.length < before'.length) : before.length + span.length ≤ before'.length := by
  obtain ⟨ls, hfirst⟩ := hspan.first
  obtain ⟨ls', hfirst'⟩ := hspan'.first
  obtain ⟨rest', rfl⟩ := List.head?_eq_some_iff.mp hfirst'
  have hsplit : before ++ span ++ after = before' ++ (j, .begins ls') :: (rest' ++ after') := by
    rw [← h, h', List.append_assoc, List.cons_append]
  rcases split_append hsplit with ⟨last, hinside, -⟩ | ⟨first, rfl, -⟩
  · exfalso
    rcases split_append hinside with ⟨last', rfl, -⟩ | ⟨first, rfl, hspan_eq⟩
    · rw [List.length_append] at hlt
      omega
    · have hmem : (j, Deed.begins ls') ∈ span := by simp [hspan_eq]
      have hduring := hs.during_cycle.of_span h hfirst ⟨ls, rfl⟩
        (by rintro _ ⟨result, rfl⟩; exact hspan.goesOn result)
      rcases hduring _ hmem with rfl | ⟨hwrite, -⟩
      · cases first with
        | nil => simp at hlt
        | cons entry middle =>
            rw [hspan_eq, List.cons_append, List.head?_cons] at hfirst
            obtain rfl := Option.some.inj hfirst
            have hentries : s.entries = before ++ (j, .begins ls) ::
                (middle ++ (j, .begins ls') :: (last ++ after)) := by simpa [hspan_eq] using h
            obtain ⟨result, hreturns⟩ := hs.begins_once hentries
            refine hspan.goesOn result ?_
            rw [hspan_eq, List.dropLast_append_of_ne_nil (by simp)]
            exact List.mem_append_left _ (List.mem_cons_of_mem _ hreturns)
      · cases hwrite
  · simp only [List.length_append]
    omega

-- In every state of every run at most one call of the pump is under way. While a refresh is under
-- way, only writes get a word in, so refreshes come one after another. While it is at an address,
-- nobody does: what a write does comes before all of that or after all of it.
theorem calls_serialized (hs : s.Reachable) :
    (∀ i j, s.isAt Stage.hasTransport i = true → s.isAt Stage.hasTransport j = true → i = j) ∧
    (∀ before i a after, s.entries = before ++ (i, .asks a) :: after →
      ∃ first ls last, before = first ++ (i, .begins ls) :: last ∧
        ∀ result, (i, .returns result) ∉ last) ∧
    (∀ i before span after, s.entries = before ++ span ++ after → CycleSpan i span →
      (∀ entry ∈ span, entry.1 = i ∨ s.OfWrite entry) ∧
      ∀ j before' span' after', s.entries = before' ++ span' ++ after' → CycleSpan j span' →
        before.length < before'.length → before.length + span.length ≤ before'.length) ∧
    ∀ i before span after, s.entries = before ++ span ++ after → StepSpan i span →
      (∀ entry ∈ span, entry.1 = i) ∧
      ∀ j a value, s.job? j = some (.write a value) →
        (∀ entry ∈ before ++ span, entry.1 ≠ j) ∨ ∀ entry ∈ span ++ after, entry.1 ≠ j := by
  refine ⟨?_, ?_, ?_, ?_⟩
  · intro i j hi hj
    have hholder := hs.orderly.transport.holder i hi
    rw [hs.orderly.transport.holder j hj] at hholder
    exact (Option.some.inj hholder).symm
  · exact fun before i a after h => hs.asks_within h
  · intro i before span after h hspan
    obtain ⟨ls, hfirst⟩ := hspan.first
    refine ⟨hs.during_cycle.of_span h hfirst ⟨ls, rfl⟩ ?_, ?_⟩
    · rintro _ ⟨result, rfl⟩
      exact hspan.goesOn result
    · exact fun j before' span' after' h' hspan' hlt => hs.cycles_apart h hspan h' hspan' hlt
  · intro i before span after h hspan
    obtain ⟨a, hfirst⟩ := hspan.first
    have hown : ∀ entry ∈ span, entry.1 = i := by
      intro entry hmem
      have hduring := hs.during_step.of_span h hfirst ⟨a, rfl⟩
        (by rintro _ ⟨hub, ls, rfl⟩; exact hspan.goesOn hub ls)
      exact (hduring entry hmem).resolve_right id
    refine ⟨hown, fun j b value hjob => ?_⟩
    obtain ⟨rest, rfl⟩ := List.head?_eq_some_iff.mp hfirst
    have hne : j ≠ i := by
      rintro rfl
      have hasks : (j, .asks a) ∈ s.entries := by simp [h]
      cases hs.of_write hjob hasks
    have hspan_other : ∀ entry ∈ (i, Deed.asks a) :: rest, entry.1 ≠ j :=
      fun entry hmem heq => hne (heq.symm.trans (hown entry hmem))
    have hsilent : ∀ {entries : List (TaskId × Deed)}, deedsIn entries j = [] →
        ∀ entry ∈ entries, entry.1 ≠ j := by
      rintro entries hnil ⟨_, deed⟩ hmem rfl
      have hdeed := mem_deedsIn.mpr hmem
      rw [hnil] at hdeed
      cases hdeed
    rw [List.append_assoc, List.cons_append] at h
    by_cases hbefore : deedsIn before j = []
    · left
      intro entry hmem
      exact (List.mem_append.mp hmem).elim (hsilent hbefore entry) (hspan_other entry)
    · right
      have hafter := (hs.writesApart before (rest ++ after) i a j b value h hjob hbefore).2
      intro entry hmem
      rcases List.mem_cons.mp hmem with rfl | hmem
      · exact Ne.symm hne
      · exact hsilent hafter entry hmem

-- Two refreshes, of which the second one waits for the first, and a write between the two addresses
-- of the first.
def crossing : List Move :=
  [.act (.listen "first" [1, 2] []), .spawn .refresh, .spawn .cycle,
    .spawn (.write 1 (.integer 7)), .step 0, .step 1, .step 0, .step 0, .step 2, .step 0, .step 1,
    .step 2, .step 2, .step 0, .step 0, .step 1, .step 1, .step 1]

def crossed : System := (fresh {} .f1255 { source := .echo }).play crossing

theorem calls_serialized_crossing :
    CycleSpan 0 (crossed.entries.take 19) ∧
      (crossed.entries.take 19).map Prod.fst =
        [0, 0, 0, 0, 0, 0, 0, 2, 2, 2, 2, 2, 0, 0, 0, 0, 0, 0, 0] ∧
      (∀ entry ∈ crossed.entries.take 19, entry.1 = 0 ∨ crossed.OfWrite entry) ∧
      StepSpan 0 ((crossed.entries.drop 2).take 5) ∧
      ∀ entry ∈ (crossed.entries.drop 2).take 5, entry.1 = 0 := by
  have hs : crossed.Reachable := ⟨_, _, _, _, rfl⟩
  have hcycle : CycleSpan 0 (crossed.entries.take 19) := by
    refine ⟨⟨_, rfl⟩, fun result hmem => ?_⟩
    have hplain : (crossed.entries.take 19).dropLast.tail.all (·.2.isPlain) = true := by decide
    rcases List.mem_cons.mp (show _ ∈ _ :: (crossed.entries.take 19).dropLast.tail from hmem)
      with heq | hmem
    · cases heq
    · cases List.all_eq_true.mp hplain _ hmem
  have hstep : StepSpan 0 ((crossed.entries.drop 2).take 5) := by
    refine ⟨⟨1, rfl⟩, fun hub ls hmem => ?_⟩
    obtain ⟨result, revision, value, stored, heq⟩ : ∃ result revision value stored,
        ((crossed.entries.drop 2).take 5).dropLast =
          [(0, .asks 1), (0, .hears 1 result), (0, .offers revision 1 value stored),
            (0, .settles 1)] := ⟨_, _, _, _, rfl⟩
    rw [heq] at hmem
    simp at hmem
  refine ⟨hcycle, by decide, ?_, hstep, ?_⟩
  · exact ((calls_serialized hs).2.2.1 0 [] _ (crossed.entries.drop 19) (by simp) hcycle).1
  · exact ((calls_serialized hs).2.2.2 0 (crossed.entries.take 2) _ (crossed.entries.drop 7)
      rfl hstep).1

end CoilHub.System
