import CoilHub.Proofs.Entities.Availability
import CoilHub.Proofs.Interleaving.Phases

namespace CoilHub

namespace System

-- The outcome that a part of the log leaves the flag with. `keeps` tells the tasks whose outcomes are
-- kept.
def verdict? (keeps : TaskId → Bool) : TaskId × Deed → Option Bool
  | (_, .returns (.error .cancelled)) => none
  | (id, .returns (.ok _)) => if keeps id then some true else none
  | (id, .returns (.error _)) => if keeps id then some false else none
  | _ => none

-- The latest outcome that is kept. A new hub counts as successful.
def verdict (keeps : TaskId → Bool) (entries : List (TaskId × Deed)) : Bool :=
  (entries.filterMap (verdict? keeps)).getLast?.getD true

-- Whether listeners are called by a task that has its outcomes kept and is at no refresh by then.
def isBroadcast (keeps : TaskId → Bool) (before : List (TaskId × Deed)) : TaskId × Deed → Bool
  | (id, .calls _ _) =>
    keeps id && decide ((deedsIn before id).foldlM Phase.next .outside = some .outside)
  | _ => false

-- The calls of that kind in a part of the log.
def broadcastsAfter (keeps : TaskId → Bool) (before : List (TaskId × Deed)) :
    List (TaskId × Deed) → List (TaskId × Deed)
  | [] => []
  | entry :: rest =>
    if isBroadcast keeps before entry then entry :: broadcastsAfter keeps (before ++ [entry]) rest
    else broadcastsAfter keeps (before ++ [entry]) rest

-- How often the flag falls in a run.
def falls (s : System) : List Move → Nat
  | [] => 0
  | m :: rest =>
    (if s.hub.lastSuccess && !(s.move m).hub.lastSuccess then 1 else 0) + falls (s.move m) rest

def keeps (s : System) (id : TaskId) : Bool := (s.job? id).any Job.keepsOutcome

section

variable (keeps : TaskId → Bool)

theorem verdict_of_none (before : List (TaskId × Deed)) {more : List (TaskId × Deed)}
    (hmore : ∀ entry ∈ more, verdict? keeps entry = none) :
    verdict keeps (before ++ more) = verdict keeps before := by
  unfold verdict
  rw [List.filterMap_append, List.filterMap_eq_nil_iff.mpr hmore, List.append_nil]

theorem verdict_concat (before : List (TaskId × Deed)) (entry : TaskId × Deed) :
    verdict keeps (before ++ [entry]) = (verdict? keeps entry).getD (verdict keeps before) := by
  unfold verdict
  rw [List.filterMap_append, List.getLast?_append]
  cases h : verdict? keeps entry <;> simp [h]

theorem broadcastsAfter_append (before entries more : List (TaskId × Deed)) :
    broadcastsAfter keeps before (entries ++ more) =
      broadcastsAfter keeps before entries ++ broadcastsAfter keeps (before ++ entries) more := by
  induction entries generalizing before with
  | nil => simp [broadcastsAfter]
  | cons entry rest ih =>
      simp only [List.cons_append, broadcastsAfter, ih, List.append_assoc, List.nil_append]
      split <;> rfl

theorem broadcastsAfter_of_none {before entries : List (TaskId × Deed)}
    (h : ∀ first entry last, entries = first ++ entry :: last →
      isBroadcast keeps (before ++ first) entry = false) : broadcastsAfter keeps before entries = [] := by
  induction entries generalizing before with
  | nil => rfl
  | cons entry rest ih =>
      have hentry := h [] entry rest rfl
      rw [List.append_nil] at hentry
      rw [broadcastsAfter, hentry, if_neg Bool.false_ne_true]
      apply ih
      rintro first other last rfl
      rw [List.append_assoc]
      exact h (entry :: first) other last rfl

end

-- A call of that kind with what comes before it and after it.
structure BroadcastAt (keeps : TaskId → Bool) (entries before : List (TaskId × Deed)) (id : TaskId)
    (hub : Hub) (ls : List HubListener) (after : List (TaskId × Deed)) : Prop where
  entries : entries = before ++ (id, .calls hub ls) :: after
  told : isBroadcast keeps before (id, .calls hub ls) = true

-- How the flag and the calls of that kind, of which there are so many, go with the log.
structure Announces (keeps : TaskId → Bool) (entries : List (TaskId × Deed)) (flag : Bool)
    (count : Nat) : Prop where
  flag : flag = verdict keeps entries
  returned : ∀ before id result after, entries = before ++ (id, .returns result) :: after →
    keeps id = true →
      ((∃ hub ls rest,
          BroadcastAt keeps entries (before ++ [(id, .returns result)]) id hub ls rest) ↔
        (∃ a e, result = .error (.refreshFailed a e)) ∧ verdict keeps before = true)
  told : ∀ before id hub ls after, BroadcastAt keeps entries before id hub ls after →
    (∃ first a e, before = first ++ [(id, .returns (.error (.refreshFailed a e)))] ∧
      verdict keeps first = true) ∧
    hub.lastSuccess = false ∧ ls = hub.registry.listeners ∧ Unique ls
  count : (broadcastsAfter keeps [] entries).length = count

-- Between two calls of that kind there is a success.
def Recovers (keeps : TaskId → Bool) (entries : List (TaskId × Deed)) : Prop :=
  ∀ first i hub ls middle j hub' ls' last,
    BroadcastAt keeps entries first i hub ls (middle ++ (j, .calls hub' ls') :: last) →
    BroadcastAt keeps entries (first ++ (i, .calls hub ls) :: middle) j hub' ls' last →
    ∃ k values, keeps k = true ∧ (k, .returns (.ok values)) ∈ middle

section

variable {keeps : TaskId → Bool} {entries : List (TaskId × Deed)} {flag : Bool} {count : Nat}

theorem announces_nil : Announces keeps [] true 0 where
  flag := rfl
  returned := by simp
  told := fun before id hub ls after h => by simpa using h.entries
  count := rfl

theorem keeps_of_isBroadcast {before : List (TaskId × Deed)} {id : TaskId} {deed : Deed}
    (h : isBroadcast keeps before (id, deed) = true) : keeps id = true := by
  cases deed with
  | calls hub ls => exact (Bool.and_eq_true_iff.mp h).1
  | _ => cases h

-- What comes after a return stays what it is when the log goes on with something else than a call.
theorem Announces.returned_old (h : Announces keeps entries flag count)
    {more before rest : List (TaskId × Deed)} {id : TaskId} {result : RefreshResult}
    (hhead : ∀ id hub ls, more.head? ≠ some (id, .calls hub ls))
    (hold : entries = before ++ (id, .returns result) :: rest) (hkeeps : keeps id = true) :
    (∃ hub ls after, BroadcastAt keeps (entries ++ more) (before ++ [(id, .returns result)]) id hub ls
        after) ↔
      (∃ a e, result = .error (.refreshFailed a e)) ∧ verdict keeps before = true := by
  rw [← h.returned before id result rest hold hkeeps]
  constructor
  · rintro ⟨hub, ls, after, hentries, htold⟩
    rw [hold, List.append_assoc, List.append_assoc, List.append_cancel_left_eq, List.cons_append,
      List.singleton_append, List.cons.injEq] at hentries
    cases rest with
    | nil =>
        refine absurd ?_ (hhead id hub ls)
        rw [List.nil_append] at hentries
        rw [hentries.2]
        rfl
    | cons entry rest =>
        rw [List.cons_append, List.cons.injEq] at hentries
        refine ⟨hub, ls, rest, ?_, htold⟩
        rw [hold, hentries.2.1, List.append_assoc, List.singleton_append]
  · rintro ⟨hub, ls, after, hentries, htold⟩
    refine ⟨hub, ls, after ++ more, ?_, htold⟩
    rw [hentries, List.append_assoc, List.cons_append]

-- The log goes on with something that says nothing about outcomes.
theorem Announces.quiet (h : Announces keeps entries flag count) {more : List (TaskId × Deed)}
    (hhead : ∀ id hub ls, more.head? ≠ some (id, .calls hub ls))
    (hnone : ∀ id result, (id, .returns result) ∉ more)
    (htells : ∀ first entry last, more = first ++ entry :: last →
      isBroadcast keeps (entries ++ first) entry = false) :
    Announces keeps (entries ++ more) flag count where
  flag := by
    rw [h.flag, verdict_of_none]
    rintro ⟨id, deed⟩ hmem
    cases deed with
    | returns result => exact absurd hmem (hnone id result)
    | _ => rfl
  returned := by
    intro before id result after hentries hkeeps
    rcases split_append hentries with ⟨rest, hold, -⟩ | ⟨first, -, hmore⟩
    · exact h.returned_old hhead hold hkeeps
    · exact absurd (by rw [hmore]; simp) (hnone id result)
  told := by
    rintro before id hub ls after ⟨hentries, htold⟩
    rcases split_append hentries with ⟨rest, hold, -⟩ | ⟨first, rfl, hmore⟩
    · exact h.told before id hub ls rest ⟨hold, htold⟩
    · rw [htells first _ after hmore] at htold
      cases htold
  count := by
    rw [broadcastsAfter_append, List.nil_append, broadcastsAfter_of_none keeps htells,
      List.append_nil]
    exact h.count

-- The log goes on with the end of a refresh of which nobody is to hear.
theorem Announces.ends (h : Announces keeps entries flag count) {id : TaskId} {result : RefreshResult}
    (hquiet : keeps id = true → (∃ a e, result = .error (.refreshFailed a e)) → flag = false) :
    Announces keeps (entries ++ [(id, .returns result)])
      (verdict keeps (entries ++ [(id, .returns result)])) count where
  flag := rfl
  returned := by
    intro before j result' after hentries hj
    rcases split_append hentries with ⟨rest, hold, -⟩ | ⟨first, rfl, hmore⟩
    · exact h.returned_old (by simp) hold hj
    · cases first with
      | cons entry first => simp at hmore
      | nil =>
          obtain ⟨⟨rfl, rfl⟩, rfl⟩ : (id = j ∧ result = result') ∧ [] = after := by
            simpa using hmore
          constructor
          · rintro ⟨hub, ls, after, hentries, -⟩
            simp at hentries
          · rintro ⟨hfailed, hverdict⟩
            rw [List.append_nil, ← h.flag, hquiet hj hfailed] at hverdict
            cases hverdict
  told := by
    rintro before j hub ls after ⟨hentries, htells⟩
    rcases split_append hentries with ⟨rest, hold, -⟩ | ⟨first, -, hmore⟩
    · exact h.told before j hub ls rest ⟨hold, htells⟩
    · cases first <;> simp at hmore
  count := by
    rw [broadcastsAfter_append, List.length_append, h.count]
    rfl

-- The log goes on with a failure after a success, and everybody is called.
theorem Announces.fails (h : Announces keeps entries true count) {id : TaskId} {a : Address}
    {e : FetchError} {hub : Hub} (hkeeps : keeps id = true) (hflag : hub.lastSuccess = false)
    (hdistinct : hub.registry.Distinct)
    (houtside : (deedsIn (entries ++ [(id, .returns (.error (.refreshFailed a e)))]) id).foldlM
      Phase.next .outside = some .outside) :
    Announces keeps (entries ++ [(id, .returns (.error (.refreshFailed a e))),
      (id, .calls hub hub.registry.listeners)]) false (count + 1) := by
  have htells : isBroadcast keeps (entries ++ [(id, .returns (.error (.refreshFailed a e)))])
      (id, .calls hub hub.registry.listeners) = true := by
    simp [isBroadcast, houtside, hkeeps]
  refine ⟨?_, ?_, ?_, ?_⟩
  · rw [List.append_cons, verdict_concat, verdict_concat]
    simp [verdict?, hkeeps]
  · intro before j result after hentries hj
    rcases split_append hentries with ⟨rest, hold, -⟩ | ⟨first, rfl, hmore⟩
    · exact h.returned_old (by simp) hold hj
    · cases first with
      | cons entry first => cases first <;> simp at hmore
      | nil =>
          obtain ⟨⟨rfl, rfl⟩, rfl⟩ : (id = j ∧ .error (.refreshFailed a e) = result) ∧
              [(id, .calls hub hub.registry.listeners)] = after := by simpa using hmore
          rw [List.append_nil]
          exact ⟨fun _ => ⟨⟨a, e, rfl⟩, h.flag.symm⟩, fun _ => ⟨hub, _, [], by simp, htells⟩⟩
  · rintro before j found ls after ⟨hentries, htold⟩
    rcases split_append hentries with ⟨rest, hold, -⟩ | ⟨first, rfl, hmore⟩
    · exact h.told before j found ls rest ⟨hold, htold⟩
    · cases first with
      | nil => simp at hmore
      | cons entry first =>
          cases first with
          | cons entry' first => simp at hmore
          | nil =>
              obtain ⟨rfl, ⟨rfl, rfl, rfl⟩, -⟩ :
                  (id, .returns (.error (.refreshFailed a e))) = entry ∧
                    (id = j ∧ hub = found ∧ hub.registry.listeners = ls) ∧ [] = after := by
                simpa using hmore
              exact ⟨⟨entries, a, e, rfl, h.flag.symm⟩, hflag, rfl, hdistinct⟩
  · have hreturns : isBroadcast keeps entries (id, .returns (.error (.refreshFailed a e))) = false :=
      rfl
    rw [broadcastsAfter_append, List.length_append, h.count, List.nil_append]
    simp [broadcastsAfter, hreturns, htells]

variable {job : Job} {id : TaskId} {result : RefreshResult} {last : Hub}

theorem toldAfter_of_not_keeps (h : job.keepsOutcome = false) : toldAfter job result last = [] := by
  cases job <;> first | rfl | cases h

theorem toldAfter_failed (h : job.keepsOutcome = true) (a : Address) (e : FetchError) :
    toldAfter job (.error (.refreshFailed a e)) last =
      if last.lastSuccess then
        [.calls { last with lastSuccess := false } last.registry.listeners]
      else [] := by
  cases job <;> first | rfl | cases h

theorem verdict_returns (hkeeps : keeps id = job.keepsOutcome) (result : RefreshResult)
    (before : List (TaskId × Deed)) :
    verdict keeps (before ++ [(id, .returns result)]) =
      successAfter job result (verdict keeps before) := by
  rw [verdict_concat]
  cases result with
  | ok values => cases job <;> simp [verdict?, successAfter, hkeeps, Job.keepsOutcome]
  | error e =>
      cases e <;> cases job <;> simp [verdict?, successAfter, hkeeps, Job.keepsOutcome]

-- Who hears of the end of a refresh, and how the flag falls with it.
theorem toldAfter_cases (job : Job) (last : Hub)
    (hresult : ∀ e, result = .error e → e = .cancelled ∨ ∃ a cause, e = .refreshFailed a cause) :
    (toldAfter job result last = [] ∧
        ¬(job.keepsOutcome = true ∧ (∃ a e, result = .error (.refreshFailed a e)) ∧
          last.lastSuccess = true) ∧
        (last.lastSuccess && !successAfter job result last.lastSuccess) = false) ∨
      toldAfter job result last =
          [.calls { last with lastSuccess := false } last.registry.listeners] ∧
        job.keepsOutcome = true ∧ (∃ a e, result = .error (.refreshFailed a e)) ∧
        last.lastSuccess = true ∧
        (last.lastSuccess && !successAfter job result last.lastSuccess) = true := by
  cases hkeeps : job.keepsOutcome with
  | false =>
      refine .inl ⟨toldAfter_of_not_keeps hkeeps, by simp, ?_⟩
      cases job <;> simp_all [successAfter, Job.keepsOutcome]
  | true =>
      cases result with
      | ok values => exact .inl ⟨toldAfter_ok job values last, by simp, by simp [successAfter_ok hkeeps]⟩
      | error e =>
          rcases hresult e rfl with rfl | ⟨a, cause, rfl⟩
          · exact .inl ⟨toldAfter_cancelled job last, by simp, by simp⟩
          · rw [toldAfter_failed hkeeps]
            have hfalls : successAfter job (.error (.refreshFailed a cause)) last.lastSuccess = false := by
              cases job <;> first | rfl | cases hkeeps
            rw [hfalls]
            cases hlast : last.lastSuccess with
            | false => exact .inl ⟨rfl, by simp, rfl⟩
            | true => exact .inr ⟨rfl, rfl, ⟨a, cause, rfl⟩, rfl, rfl⟩

-- The log goes on with the end of a refresh and, if it comes to that, with a call of everybody.
theorem Announces.returns (h : Announces keeps entries last.lastSuccess count)
    (hkeeps : keeps id = job.keepsOutcome)
    (hresult : ∀ e, result = .error e → e = .cancelled ∨ ∃ a cause, e = .refreshFailed a cause)
    (hdistinct : last.registry.Distinct)
    (houtside : (deedsIn (entries ++ [(id, .returns result)]) id).foldlM Phase.next .outside =
      some .outside) :
    Announces keeps
      (entries ++ (id, .returns result) :: (toldAfter job result last).map fun deed => (id, deed))
      (successAfter job result last.lastSuccess)
      (count + if last.lastSuccess && !successAfter job result last.lastSuccess then 1 else 0) := by
  have hverdict := verdict_returns hkeeps result entries
  rw [← h.flag] at hverdict
  rcases toldAfter_cases job last hresult with
    ⟨htold, hquiet, hsame⟩ | ⟨htold, hkept, ⟨a, e, rfl⟩, hlast, hfalls⟩
  · rw [htold, hsame, ← hverdict]
    refine h.ends fun hk hfailed => ?_
    rw [Bool.eq_false_iff]
    exact fun hlast => hquiet ⟨hkeeps.symm.trans hk, hfailed, hlast⟩
  · have hfalse : successAfter job (.error (.refreshFailed a e)) last.lastSuccess = false := by
      simpa [hlast] using hfalls
    rw [hlast] at h
    rw [htold, hfalls, hfalse]
    exact h.fails (hkeeps.trans hkept) rfl hdistinct houtside

end

variable {s s' : System} {id : TaskId}

-- Whether the listeners that a task calls are called as part of a refresh.
def Within (s : System) (id : TaskId) (deeds : List Deed) : Prop :=
  (∀ hub ls, .calls hub ls ∉ deeds) ∨ ((s.stage? id).getD .fresh).phase ≠ .outside

-- What a turn adds to the log and makes of the flag. It has nothing to do with the outcome of a
-- refresh, or it is the end of one.
inductive Reports (s s' : System) (id : TaskId) (job : Job) : List Deed → Prop
  | quiet {deeds : List Deed} (hnone : ∀ result, .returns result ∉ deeds)
    (hwithin : job.keepsOutcome = true → Within s id deeds)
    (hsuccess : s'.hub.lastSuccess = s.hub.lastSuccess) : Reports s s' id job deeds
  | returns {body : List Deed} {result : RefreshResult} {last : Hub}
    (hnone : ∀ result, .returns result ∉ body) (hwithin : Within s id body)
    (hresult : ∀ e, result = .error e → e = .cancelled ∨ ∃ a cause, e = .refreshFailed a cause)
    (hlast : last.lastSuccess = s.hub.lastSuccess) (hdistinct : last.registry.Distinct)
    (hsuccess : s'.hub.lastSuccess = successAfter job result s.hub.lastSuccess) :
    Reports s s' id job (body ++ .returns result :: toldAfter job result last)

-- A refresh that is cancelled or comes to its end tells nobody.
theorem reports_untold {job : Job} (body : List Deed) {result : RefreshResult}
    (hresult : result = .error .cancelled ∨ ∃ values, result = .ok values)
    (hnone : ∀ result, .returns result ∉ body) (hwithin : Within s id body)
    (hdistinct : s.hub.registry.Distinct)
    (hsuccess : s'.hub.lastSuccess = successAfter job result s.hub.lastSuccess) :
    Reports s s' id job (body ++ [.returns result]) := by
  have htold : toldAfter job result s.hub = [] := by
    rcases hresult with rfl | ⟨values, rfl⟩ <;> simp
  have hreports : Reports s s' id job (body ++ .returns result :: toldAfter job result s.hub) := by
    refine .returns hnone hwithin ?_ rfl hdistinct hsuccess
    rintro e rfl
    rcases hresult with heq | ⟨values, heq⟩
    · cases heq
      exact .inl rfl
    · cases heq
  rw [htold] at hreports
  exact hreports

theorem reports_silent {job : Job} (hsuccess : s'.hub.lastSuccess = s.hub.lastSuccess) :
    Reports s s' id job [] :=
  .quiet (fun _ => List.not_mem_nil) (fun _ => .inl fun _ _ => List.not_mem_nil) hsuccess

theorem Turn.reports (ht : Turn id s s') (hs : s.Reachable) {job : Job}
    (hjob : s.job? id = some job) :
    ∃ deeds, s'.entries = s.entries ++ deeds.map (fun deed => (id, deed)) ∧
      Reports s s' id job deeds ∧ ∀ hub ls, deeds.head? ≠ some (.calls hub ls) := by
  have hdistinct := hs.documented.unique
  have hjobs : ∀ {job'}, s.job? id = some job' → job' = job := by
    intro job' hjob'
    rw [hjob] at hjob'
    exact (Option.some.inj hjob').symm
  have hamid : ∀ {stage deeds}, s.stage? id = some stage → stage.phase ≠ .outside →
      Within s id deeds := by
    intro stage deeds hst hphase
    refine .inr ?_
    rw [hst]
    exact hphase
  have hwrites : ∀ {a value deeds}, s.job? id = some (.write a value) →
      job.keepsOutcome = true → Within s id deeds := by
    intro a value deeds hwrite hkeeps
    rw [← hjobs hwrite] at hkeeps
    cases hkeeps
  cases ht with
  | stays heq _ => exact ⟨[], by simp [heq], reports_silent (by rw [heq]), by simp⟩
  | queues hjob' hr hst hfrom h =>
      exact ⟨_, h.entries_eq, reports_silent h.success_eq, by simp⟩
  | queuesWrite hjob' hst hc h =>
      exact ⟨_, h.entries_eq, reports_silent h.success_eq, by simp⟩
  | declinesWrite hjob' hst hc h =>
      exact ⟨_, h.entries_eq, reports_silent h.success_eq, by simp⟩
  | rests hjob' hw hst hfrom h =>
      exact ⟨_, h.entries_eq, reports_silent h.success_eq, by simp⟩
  | ends hjob' hother hst hfrom h =>
      exact ⟨_, h.entries_eq, reports_silent h.success_eq, by simp⟩
  | declines hjob' hst hl hc h =>
      refine ⟨_, h.entries_eq, ?_, by simp⟩
      exact reports_untold [] (.inl rfl) (by simp) (.inl (by simp)) hdistinct
        (by rw [h.success_eq, successAfter_cancelled])
  | beginsNothing hjob' hst hl hc hp h =>
      obtain rfl := hjobs hjob'
      refine ⟨_, h.entries_eq, ?_, by simp⟩
      exact reports_untold [.begins _] (.inr ⟨_, rfl⟩) (by simp) (.inl (by simp))
        hdistinct h.success_eq
  | begins hst hl hc hp h =>
      exact ⟨_, h.entries_eq, .quiet (by simp) (fun _ => .inl (by simp)) h.success_eq, by simp⟩
  | asks hst hp hl hc h =>
      exact ⟨_, h.entries_eq, .quiet (by simp) (fun _ => .inl (by simp)) h.success_eq, by simp⟩
  | @withdraws job' cycle hub hjob' hst hp hl hc hhub h =>
      refine ⟨_, h.entries_eq, ?_, by simp⟩
      exact reports_untold [.reserves _, .abandons, .calls hub cycle.waiting] (.inl rfl)
        (by simp) (hamid hst nofun) hdistinct (by rw [h.success_eq, successAfter_cancelled])
  | asksAgain hst hp hc hresult h =>
      exact ⟨_, h.entries_eq, .quiet (by simp) (fun _ => .inl (by simp)) h.success_eq, by simp⟩
  | settles hst hp hrest hc hobtains hhub h =>
      refine ⟨_, h.entries_eq, .quiet ?_ (fun _ => hamid hst nofun) h.success_eq, by simp⟩
      cases hobtains <;> simp
  | @settlesLast job' cycle a watchers revision attempt due result cache offers stored hub hjob' hst hp
      hc hobtains hhub h =>
      obtain rfl := hjobs hjob'
      refine ⟨_, h.entries_eq, ?_, by simp⟩
      have hbody : .hears a result :: offers ++ [.settles a, .calls hub (cycle.settle stored).2,
          .returns (.ok (cycle.settle stored).1.result)] =
          (.hears a result :: offers ++ [.settles a, .calls hub (cycle.settle stored).2]) ++
            [.returns (.ok (cycle.settle stored).1.result)] := by simp
      rw [hbody]
      refine reports_untold _ (.inr ⟨_, rfl⟩) ?_ (hamid hst nofun) hdistinct h.success_eq
      cases hobtains <;> simp
  | @givesUp job' cycle revision attempt due hub hjob' hst hp hc hhub h =>
      refine ⟨_, h.entries_eq, ?_, by simp⟩
      exact reports_untold [.abandons, .calls hub cycle.waiting] (.inl rfl) (by simp)
        (hamid hst nofun) hdistinct (by rw [h.success_eq, successAfter_cancelled])
  | @fails job' cycle a watchers rest revision attempt due e hub last hjob' hst hp hc hresult hfound
      hhub hlast h =>
      obtain rfl := hjobs hjob'
      refine ⟨_, h.entries_eq, ?_, by simp⟩
      have hbody : .hears a (.error e) :: .abandons :: .calls hub cycle.waiting ::
          .returns (.error (.refreshFailed a e)) ::
            toldAfter job' (.error (.refreshFailed a e)) last =
          [.hears a (.error e), .abandons, .calls hub cycle.waiting] ++
            .returns (.error (.refreshFailed a e)) ::
              toldAfter job' (.error (.refreshFailed a e)) last := rfl
      rw [hbody]
      refine .returns (by simp) (hamid hst nofun) ?_ hlast.success (hlast.distinct hdistinct)
        h.success_eq
      rintro _ ⟨⟩
      exact .inr ⟨a, e, rfl⟩
  | sends hst hl h =>
      have hwrite := hs.orderly.fits id job _ hjob hst
      exact ⟨_, h.entries_eq, .quiet (by simp) (hwrites (hwrite ▸ hjob)) h.success_eq, by simp⟩
  | refused hst h =>
      have hwrite := hs.orderly.fits id job _ hjob hst
      exact ⟨_, h.entries_eq, .quiet (by simp) (hwrites (hwrite ▸ hjob)) h.success_eq, by simp⟩
  | @acknowledged a value ack revision hadData cache offers stored hub hst hobtains hhub h =>
      have hwrite := hs.orderly.fits id job _ hjob hst
      refine ⟨_, h.entries_eq, .quiet ?_ (hwrites (hwrite ▸ hjob)) h.success_eq, by simp⟩
      cases hobtains <;> cases hadData <;> simp

theorem deedsIn_own (deeds : List Deed) :
    deedsIn (deeds.map fun deed => (id, deed)) id = deeds := by
  induction deeds with
  | nil => rfl
  | cons deed rest ih => rw [List.map_cons, deedsIn_cons_self, ih]

section

variable {keeps : TaskId → Bool} {count : Nat}

-- Listeners that a task calls as part of a refresh are not called because of its outcome.
theorem isBroadcast_of_within (hs : s.Reachable) {deeds : List Deed}
    (hwithin : keeps id = true → Within s id deeds) (hnone : ∀ result, .returns result ∉ deeds)
    {first last : List (TaskId × Deed)} {entry : TaskId × Deed}
    (h : deeds.map (fun deed => (id, deed)) = first ++ entry :: last) :
    isBroadcast keeps (s.entries ++ first) entry = false := by
  obtain ⟨before, rest, rfl, rfl, hrest⟩ := List.map_eq_append_iff.mp h
  obtain ⟨deed, after, rfl, rfl, -⟩ := List.map_eq_cons_iff.mp hrest
  cases deed with
  | calls hub ls =>
      rw [Bool.eq_false_iff]
      intro htells
      obtain ⟨hkeeps, houtside⟩ := Bool.and_eq_true_iff.mp htells
      rcases hwithin hkeeps with hsilent | hphase
      · exact hsilent hub ls (by simp)
      · have hfold := of_decide_eq_true houtside
        rw [deedsIn_append, deedsIn_own, ← deeds_eq, List.foldlM_append, hs.audible.phase] at hfold
        exact Phase.under_way hfold hphase
          (fun result hmem => hnone result (List.mem_append_left _ hmem)) rfl
  | _ => rfl

theorem Announces.within (h : Announces keeps s.entries s.hub.lastSuccess count) (hs : s.Reachable)
    {deeds : List Deed} (hwithin : keeps id = true → Within s id deeds)
    (hnone : ∀ result, .returns result ∉ deeds)
    (hhead : ∀ hub ls, deeds.head? ≠ some (.calls hub ls)) :
    Announces keeps (s.entries ++ deeds.map fun deed => (id, deed)) s.hub.lastSuccess count := by
  apply h.quiet
  · intro j hub ls heq
    rw [List.head?_map] at heq
    obtain ⟨deed, hdeed, hpair⟩ := Option.map_eq_some_iff.mp heq
    cases hpair
    exact hhead hub ls hdeed
  · intro j result hmem
    obtain ⟨deed, hdeed, hpair⟩ := List.mem_map.mp hmem
    cases hpair
    exact hnone result hdeed
  · exact fun first entry last hsplit => isBroadcast_of_within hs hwithin hnone hsplit

-- A task that has returned from a refresh is at none.
theorem Reachable.outside_of_returns (hs : s.Reachable) {before rest : List (TaskId × Deed)}
    {result : RefreshResult} (h : s.entries = before ++ (id, .returns result) :: rest) :
    (deedsIn (before ++ [(id, .returns result)]) id).foldlM Phase.next .outside = some .outside := by
  obtain ⟨p, q, hp, hq, -⟩ := hs.phase_before h
  rw [deedsIn_append, deedsIn_cons_self, List.foldlM_append, hp]
  cases p with
  | amid => cases hq
  | _ => rfl

theorem Announces.turn (h : Announces keeps s.entries s.hub.lastSuccess count) (hs : s.Reachable)
    (hs' : s'.Reachable) (ht : Turn id s s') {job : Job} (hjob : s.job? id = some job)
    (hkeeps : keeps id = job.keepsOutcome) :
    Announces keeps s'.entries s'.hub.lastSuccess
      (count + if s.hub.lastSuccess && !s'.hub.lastSuccess then 1 else 0) := by
  obtain ⟨deeds, hentries, hreports, hhead⟩ := ht.reports hs hjob
  cases hreports with
  | quiet hnone hwithin hsuccess =>
      have hsame : (s.hub.lastSuccess && !s.hub.lastSuccess) = false := by simp
      rw [hentries, hsuccess, hsame]
      exact h.within hs (fun hk => hwithin (hkeeps.symm.trans hk)) hnone hhead
  | @returns body result last hnone hwithin hresult hlast hdistinct hsuccess =>
      have hbody := h.within hs (fun _ => hwithin) hnone (by
        intro hub ls heq
        refine hhead hub ls ?_
        rw [List.head?_append, heq]
        rfl)
      rw [List.map_append, List.map_cons, ← List.append_assoc] at hentries
      rw [← hlast] at hbody hsuccess ⊢
      rw [hentries, hsuccess]
      exact hbody.returns hkeeps hresult hdistinct (hs'.outside_of_returns hentries)

theorem Announces.move (h : Announces keeps s.entries s.hub.lastSuccess count) (hs : s.Reachable)
    (m : Move) (hkeeps : ∀ id job, s.job? id = some job → keeps id = job.keepsOutcome) :
    Announces keeps (s.move m).entries (s.move m).hub.lastSuccess
      (count + if s.hub.lastSuccess && !(s.move m).hub.lastSuccess then 1 else 0) := by
  have hsame : ∀ {t : System}, t.entries = s.entries → t.hub.lastSuccess = s.hub.lastSuccess →
      Announces keeps t.entries t.hub.lastSuccess
        (count + if s.hub.lastSuccess && !t.hub.lastSuccess then 1 else 0) := by
    intro t hentries hsuccess
    rw [hentries, hsuccess, show (s.hub.lastSuccess && !s.hub.lastSuccess) = false by simp]
    exact h
  rcases move_cases s m with ⟨id, hm, ht⟩ | ⟨-, ha⟩
  · cases hjob : s.job? id with
    | some job => exact h.turn hs (hs.play [m]) ht hjob (hkeeps id job hjob)
    | none =>
        have hnone : s.tasks[id]? = none := by simpa [job?] using hjob
        have hstays : s.move m = s := by
          rw [hm]
          exact step_of_not_enabled (by simp [enabled, hnone])
        rw [hstays]
        exact hsame rfl rfl
  · exact hsame ha.entries_eq ha.success

-- The induction is on the moves. Tasks keep their jobs, so the jobs at the end tell whose outcomes are
-- kept.
theorem Announces.play (h : Announces keeps s.entries s.hub.lastSuccess count) (hs : s.Reachable)
    (moves : List Move)
    (hkeeps : ∀ id job, (s.play moves).job? id = some job → keeps id = job.keepsOutcome) :
    Announces keeps (s.play moves).entries (s.play moves).hub.lastSuccess (count + falls s moves) := by
  induction moves generalizing s count with
  | nil => exact h
  | cons m rest ih =>
      have hjobs : ∀ id job, s.job? id = some job → keeps id = job.keepsOutcome :=
        fun id job hjob => hkeeps id job (job?_play hjob (m :: rest))
      rw [falls, ← Nat.add_assoc]
      exact ih (h.move hs m hjobs) (hs.play [m]) hkeeps

-- The flag rises only with a success.
theorem returns_of_verdict {first last : List (TaskId × Deed)}
    (hfirst : verdict keeps first = false) (hlast : verdict keeps (first ++ last) = true) :
    ∃ id values, keeps id = true ∧ (id, .returns (.ok values)) ∈ last := by
  unfold verdict at hfirst hlast
  rw [List.filterMap_append, List.getLast?_append] at hlast
  cases hrest : (last.filterMap (verdict? keeps)).getLast? with
  | none =>
      rw [hrest, Option.none_or, hfirst] at hlast
      cases hlast
  | some flag =>
      rw [hrest] at hlast
      obtain rfl : flag = true := hlast
      obtain ⟨⟨id, deed⟩, hmem, hverdict⟩ := List.mem_filterMap.mp (List.mem_of_getLast? hrest)
      cases deed with
      | returns result =>
          cases result with
          | ok values =>
              have hkept : keeps id = true := by simpa [verdict?] using hverdict
              exact ⟨id, values, hkept, hmem⟩
          | error e => cases e <;> simp [verdict?] at hverdict
      | _ => cases hverdict

-- After the first of two broadcasts the flag is down, and before the second one it is up.
theorem Announces.recovers {entries : List (TaskId × Deed)} {flag : Bool}
    (h : Announces keeps entries flag count) : Recovers keeps entries := by
  intro first i hub ls middle j hub' ls' last hfirst hsecond
  obtain ⟨⟨start, a, e, rfl, -⟩, -⟩ := h.told first i hub ls _ hfirst
  obtain ⟨⟨rest, b, cause, hrest, hup⟩, -⟩ := h.told _ j hub' ls' last hsecond
  have hdown : verdict keeps (start ++ [(i, .returns (.error (.refreshFailed a e)))] ++
      [(i, .calls hub ls)]) = false := by
    rw [verdict_concat, verdict_concat]
    simp [verdict?, keeps_of_isBroadcast hfirst.told]
  cases middle using List.reverseRecOn with
  | nil =>
      have hlast := congrArg List.getLast? hrest
      simp at hlast
  | append_singleton middle entry =>
      have hinit : rest = start ++ [(i, .returns (.error (.refreshFailed a e)))] ++
          [(i, .calls hub ls)] ++ middle := by
        have hsplit : start ++ [(i, .returns (.error (.refreshFailed a e)))] ++ [(i, .calls hub ls)] ++
            middle ++ [entry] = rest ++ [(j, .returns (.error (.refreshFailed b cause)))] := by
          simpa using hrest
        exact (List.append_inj' hsplit rfl).1.symm
      rw [hinit] at hup
      obtain ⟨k, values, hk, hmem⟩ := returns_of_verdict hdown hup
      exact ⟨k, values, hk, List.mem_append_left _ hmem⟩

end

-- In every run of a new hub the flag is the latest outcome that is kept. All listeners that are
-- registered by then are called, once each and in their order, right after a refresh that fails while
-- the flag is up, and they find it down. Nobody is called outside of a refresh otherwise, so that
-- happens as often as the flag falls, and not twice without a success in between. A call means that it
-- has been recorded and that the reaction of the listener has been carried out, on the hub of the call.
theorem failures_broadcast (settings : HubConfig) (model : Model) (gateway : Gateway)
    (moves : List Move) :
    Announces ((fresh settings model gateway).play moves).keeps
        ((fresh settings model gateway).play moves).entries
        ((fresh settings model gateway).play moves).hub.lastSuccess
        (falls (fresh settings model gateway) moves) ∧
      Recovers ((fresh settings model gateway).play moves).keeps
        ((fresh settings model gateway).play moves).entries ∧
      ∀ id, ((fresh settings model gateway).play moves).CarriedOut id := by
  have hstart : Announces ((fresh settings model gateway).play moves).keeps
      (fresh settings model gateway).entries (fresh settings model gateway).hub.lastSuccess 0 :=
    announces_nil
  have hend := hstart.play ⟨settings, model, gateway, [], rfl⟩ moves (by
    intro id job hjob
    rw [keeps, hjob]
    rfl)
  rw [Nat.zero_add] at hend
  exact ⟨hend, hend.recovers, carriedOut _⟩

-- Two failures, a success and another failure.
example : falls (fresh {} .f1155 (faulty (.fatal "")))
    [.act (.listen "first" [1] []), .spawn .cycle, .step 0, .step 0, .step 0, .step 0,
      .gateway (faulty (.fatal "")), .spawn .cycle, .step 1, .step 1, .step 1, .step 1,
      .gateway { source := .echo }, .spawn .cycle, .step 2, .step 2, .step 2, .step 2,
      .gateway (faulty (.fatal "")), .spawn .cycle, .step 3, .step 3, .step 3, .step 3] = 2 := rfl

end System

end CoilHub
