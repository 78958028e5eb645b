import CoilHub.Proofs.Interleaving.Precedence
import CoilHub.Proofs.Shutdown.Ending
import CoilHub.Proofs.Writes.Effect

namespace CoilHub.System

variable {s s' : System} {moves : Nat → Move} {id i : TaskId}

-- A task that reads an address. It does so from its first attempt until the address is settled or
-- the refresh is given up.
def Reads (s : System) (id : TaskId) : Prop :=
  ∃ cycle revision attempt due, s.stage? id = some (.reading cycle revision attempt due)

-- At most one address is read from one moment to another, by whomever.
def ReadsOnce (s : System) (moves : Nat → Move) (first last : Nat) : Prop :=
  ∀ i i' n n', first ≤ n → n ≤ n' → n' ≤ last → (s.states moves n).Reads i →
    (s.states moves n').Reads i' → i' = i ∧ ∀ m, n ≤ m → m ≤ n' → (s.states moves m).Reads i

-- A write, and the moment of a run at which it is called.
structure WriteCall where
  id : TaskId
  a : Address
  value : CoilValue
  moment : Nat

namespace WriteCall

structure Made (c : WriteCall) (s : System) (moves : Nat → Move) : Prop where
  job : (s.states moves c.moment).job? c.id = some (.write c.a c.value)
  fresh : (s.states moves c.moment).stage? c.id = some .fresh
  turn : moves c.moment = .step c.id

-- A call that comes after a shutdown is declined.
def Accepted (c : WriteCall) (s : System) (moves : Nat → Move) : Prop :=
  (s.states moves c.moment).hub.cancelled = false

structure Declined (c : WriteCall) (s : System) (moves : Nat → Move) : Prop where
  hub : (s.states moves (c.moment + 1)).hub = (s.states moves c.moment).hub
  returns : ∀ n, c.moment < n →
    (s.states moves n).stage? c.id = some (.finished (.error .cancelled)) ∧
      (s.states moves n).deeds c.id = (s.states moves c.moment).deeds c.id

-- The value is sent at one moment, and at another one the pump is called and answers, at which an
-- acknowledged value is cached.
structure Served (c : WriteCall) (s : System) (moves : Nat → Move) (sent answered : Nat) :
    Prop where
  issued : Issued s moves c.id c.a c.value (c.moment + 1) sent answered
  refused : ∀ e gateway,
    (s.states moves answered).hub.gateway.write c.a c.value = (.error e, gateway) →
      WriteFails c.id c.a e gateway (s.states moves answered) (s.states moves (answered + 1))
  acknowledged : ∀ ack gateway,
    (s.states moves answered).hub.gateway.write c.a c.value = (.ok ack, gateway) →
      WriteSucceeds c.id c.a ack (s.states moves sent).hub.cache.nextRevision.1 gateway
        (s.states moves answered) (s.states moves (answered + 1))

end WriteCall

-- What becomes of writes that are called while `reader` reads an address, which it has done with by
-- its turn at the moment `ends`. They are sent after that one by one, in the order of the calls, and
-- all of them have been answered when anybody asks the pump for an address again.
structure Between (s : System) (moves : Nat → Move) (reader : TaskId) (calls : List WriteCall)
    (ends : Nat) (sent answered : WriteCall → Nat) : Prop where
  step : (∀ n ≤ ends, (s.states moves n).Reads reader) ∧ moves ends = .step reader ∧
    ¬(s.states moves (ends + 1)).Reads reader
  declined : ∀ c ∈ calls, ¬c.Accepted s moves → c.Declined s moves
  served : ∀ c ∈ calls, c.Accepted s moves →
    ends < sent c ∧ c.Served s moves (sent c) (answered c)
  order : calls.Pairwise fun c d =>
    c.Accepted s moves → d.Accepted s moves → answered c < sent d
  before : ∀ n a, ends ≤ n → .asks a ∈ deedsSince (s.states moves n) (s.states moves (n + 1)) →
    ∀ c ∈ calls, c.Accepted s moves → answered c < n

theorem Reads.wants (h : s.Reads id) : s.isAt Stage.wantsTransport id = true := by
  obtain ⟨cycle, revision, attempt, due, hst⟩ := h
  simp [isAt, hst, Stage.wantsTransport]

theorem Reads.holds (h : s.Reads id) (ho : s.Orderly) :
    s.cycleLock.holder = some id ∧ s.transport.holder = some id := by
  obtain ⟨cycle, revision, attempt, due, hst⟩ := h
  exact ho.holder_of_reading hst

theorem Reads.refreshes (h : s.Reads id) (ho : s.Orderly) :
    ∃ job, s.job? id = some job ∧ job.refreshes = true := by
  obtain ⟨cycle, revision, attempt, due, hst⟩ := h
  obtain ⟨job, hjob⟩ := job?_of_stage? hst
  exact ⟨job, hjob, ho.refreshes_of_cycle hjob hst rfl⟩

theorem Reads.of_stage (h : s.Reads id) (hst : s'.stage? id = s.stage? id) : s'.Reads id := by
  obtain ⟨cycle, revision, attempt, due, hreading⟩ := h
  exact ⟨cycle, revision, attempt, due, hst.trans hreading⟩

theorem not_reads_of_write {a : Address} {value : CoilValue} (ho : s.Orderly)
    (hjob : s.job? id = some (.write a value)) : ¬s.Reads id := by
  intro h
  obtain ⟨job, hjob', hr⟩ := h.refreshes ho
  rw [hjob] at hjob'
  cases hjob'
  cases hr

-- A refresh that has the transport has the cycle lock as well, and calls the pump in order to read.
theorem Orderly.cycle_of_refreshes (ho : s.Orderly) {job : Job} (hjob : s.job? id = some job)
    (hr : job.refreshes = true) (hwants : s.isAt Stage.wantsTransport id = true) :
    s.cycleLock.holder = some id := by
  obtain ⟨stage, hst, hat⟩ := (Option.any_eq_true _ _).mp hwants
  have hfit := ho.fits id job stage hjob hst
  cases stage with
  | awaitingTransport cycle => exact ho.holder_of_awaitingTransport hst
  | reading cycle revision attempt due => exact (ho.holder_of_reading hst).1
  | awaitingWrite a value =>
      rw [hfit] at hr
      cases hr
  | writing a value revision hadData =>
      rw [hfit] at hr
      cases hr
  | _ => cases hat

theorem Orderly.reads_of_refreshes (ho : s.Orderly) {job : Job} (hjob : s.job? id = some job)
    (hr : job.refreshes = true) (hhas : s.isAt Stage.hasTransport id = true) : s.Reads id := by
  obtain ⟨stage, hst, hat⟩ := (Option.any_eq_true _ _).mp hhas
  have hfit := ho.fits id job stage hjob hst
  cases stage with
  | reading cycle revision attempt due => exact ⟨cycle, revision, attempt, due, hst⟩
  | writing a value revision hadData =>
      rw [hfit] at hr
      cases hr
  | _ => cases hat

-- Whoever asks for an address reads it.
theorem Turn.reads_of_asks (ht : Turn id s s') {a : Address} (hmem : .asks a ∈ deedsSince s s') :
    s'.Reads id := by
  have hnone : ∀ {stage cycleLock transport cache success deeds},
      Turned id s stage cycleLock transport cache success deeds s' → .asks a ∉ deeds →
        s'.Reads id := by
    intro stage cycleLock transport cache success deeds h hnot
    rw [deedsSince_of_log_eq h.log_eq] at hmem
    exact absurd hmem hnot
  cases ht with
  | stays hs _ =>
      rw [hs, deedsSince_self] at hmem
      cases hmem
  | queues hjob hr hst hfrom h => exact hnone h List.not_mem_nil
  | queuesWrite hjob hst hc h => exact hnone h List.not_mem_nil
  | declinesWrite hjob hst hc h => exact hnone h List.not_mem_nil
  | rests hjob hw hst hfrom h => exact hnone h List.not_mem_nil
  | ends hjob hother hst hfrom h => exact hnone h List.not_mem_nil
  | declines hjob hst hl hc h => exact hnone h (by simp)
  | beginsNothing hjob hst hl hc hp h => exact hnone h (by simp)
  | begins hst hl hc hp h => exact hnone h (by simp)
  | asks hst hp hl hc h => exact ⟨_, _, _, _, h.stage⟩
  | withdraws hjob hst hp hl hc hhub h => exact hnone h (by simp)
  | asksAgain hst hp hc hresult h => exact ⟨_, _, _, _, h.stage⟩
  | settles hst hp hrest hc hobtains hhub h =>
      refine hnone h ?_
      cases hobtains <;> simp
  | settlesLast hjob hst hp hc hobtains hhub h =>
      refine hnone h ?_
      cases hobtains <;> simp
  | givesUp hjob hst hp hc hhub h => exact hnone h (by simp)
  | @fails job cycle b watchers rest revision attempt due e hub last hjob hst hp hc hresult hfound
      hhub hlast h =>
      refine hnone h ?_
      rcases toldAfter_calls job (.error (.refreshFailed b e)) last with htold | ⟨told, ls, htold⟩ <;>
        rw [htold] <;> simp
  | sends hst hl h => exact hnone h (by simp)
  | refused hst h => exact hnone h (by simp)
  | @acknowledged b value ack revision hadData cache offers stored hub hst hobtains hhub h =>
      refine hnone h ?_
      cases hobtains <;> cases hadData <;> simp

theorem reads_of_asks {m : Move} {a : Address} (hmem : .asks a ∈ deedsSince s (s.move m)) :
    ∃ i, m = .step i ∧ (s.move m).Reads i := by
  rcases move_cases s m with ⟨i, hm, ht⟩ | ⟨-, ha⟩
  · exact ⟨i, hm, ht.reads_of_asks hmem⟩
  · rw [ha.deedsSince_eq] at hmem
    cases hmem

-- Whoever reads goes on with it or passes the transport on.
theorem Orderly.reads_move (ho : s.Orderly) (hreads : s.Reads i) (m : Move) :
    (s.move m).Reads i ∨
      m = .step i ∧ ∃ more, (s.move m).transport.queue = s.transport.queue.tail ++ more := by
  obtain ⟨job, hjob, hr⟩ := hreads.refreshes ho
  rcases ho.holder_move (hreads.holds ho).2 m with ⟨-, hsame | hhas⟩ | ⟨hm, more, hmore, -⟩
  · exact .inl (hreads.of_stage hsame)
  · exact .inl ((orderly_move s m ho).reads_of_refreshes (job?_move hjob m) hr hhas)
  · exact .inr ⟨hm, more, hmore⟩

-- A write that waits has no turn, or it would have sent its value.
theorem Issued.pauses {a : Address} {value : CoilValue} {first sent answered : Nat}
    (h : Issued s moves id a value first sent answered) : Pauses s moves id first sent := by
  intro n hn hlt hstep
  refine Bool.eq_false_iff.mpr fun he => ?_
  have hnext := (turned_sends (h.waits n hn (Nat.le_of_lt hlt)) he).stage
  rw [← states_succ hstep, h.waits (n + 1) (Nat.le_succ_of_le hn) hlt] at hnext
  cases hnext

theorem Issued.not_reads {a : Address} {value : CoilValue} {first sent answered n : Nat}
    (h : Issued s moves id a value first sent answered) (hn : first ≤ n) (hle : n ≤ answered) :
    ¬(s.states moves n).Reads id := by
  rintro ⟨cycle, revision, attempt, due, hreading⟩
  rcases Nat.lt_or_ge sent n with hlt | hge
  · rw [(h.calls n hlt hle).1] at hreading
    cases hreading
  · rw [h.waits n hn hge] at hreading
    cases hreading

section

variable (hs : s.Reachable)
include hs

theorem Issued.queued {a : Address} {value : CoilValue} {first sent answered n : Nat}
    (h : Issued s moves id a value first sent answered) (hn : first ≤ n) (hle : n ≤ answered) :
    id ∈ (s.states moves n).transport.queue ∧
      ∀ cycle, (s.states moves n).stage? id ≠ some (.awaitingTransport cycle) := by
  rw [(hs.states n).orderly.transport.queue]
  rcases Nat.lt_or_ge sent n with hlt | hge
  · simp [isAt, (h.calls n hlt hle).1, Stage.wantsTransport]
  · simp [isAt, h.waits n hn hge, Stage.wantsTransport]

theorem Issued.holds {a : Address} {value : CoilValue} {first sent answered n : Nat}
    (h : Issued s moves id a value first sent answered) (hlt : sent < n) (hle : n ≤ answered) :
    (s.states moves n).transport.holder = some id :=
  (hs.states n).orderly.holder_of_writing (h.calls n hlt hle).1

-- While a write waits at most one address is read. Whoever reads is ahead of the write, and has been
-- since it came. It held the cycle lock by then, which only one refresh can hold, and would be
-- behind the write if it had passed the transport on.
theorem Issued.readsOnce {a : Address} {value : CoilValue} {first sent answered : Nat}
    (h : Issued s moves id a value first sent answered)
    (hjob : (s.states moves first).job? id = some (.write a value)) :
    ReadsOnce s moves first sent := by
  intro i i' n n' hn hnn' hn' hreads hreads'
  have ho : ∀ m, (s.states moves m).Orderly := fun m => (hs.states m).orderly
  have hqueued : ∀ m, n ≤ m → m ≤ n' → id ∈ (s.states moves m).transport.queue :=
    fun m hm hle => (h.queued hs (Nat.le_trans hn hm)
      (Nat.le_trans (Nat.le_trans hle hn') (Nat.le_of_lt h.order.2))).1
  have hne : ∀ {m k}, first ≤ m → (s.states moves m).Reads k → id ≠ k := by
    rintro m k hm hk rfl
    exact not_reads_of_write (ho m) (job?_states hm hjob) hk
  have hahead : ∀ m, n ≤ m → m ≤ n' → (s.states moves m).transport.Ahead i' id := by
    intro m hm hle
    refine ahead_of_states hs hle ?_ (fun j hj hjle => hqueued j (Nat.le_trans hm hj) hjle) ?_
    · exact .of_holder (hreads'.holds (ho n')).2 (hqueued n' hnn' (Nat.le_refl n'))
        (hne (Nat.le_trans hn hnn') hreads')
    · intro j hj hlt
      exact h.pauses j (Nat.le_trans hn (Nat.le_trans hm hj)) (Nat.lt_of_lt_of_le hlt hn')
  have hsame : i' = i := by
    have hwants : (s.states moves n).isAt Stage.wantsTransport i' = true :=
      ((ho n).transport.queue i').mp (hahead n (Nat.le_refl n) hnn').left_mem
    obtain ⟨stage, hst, -⟩ := (Option.any_eq_true _ _).mp hwants
    obtain ⟨job, hj⟩ := job?_of_stage? hst
    obtain ⟨job', hj', hr⟩ := hreads'.refreshes (ho n')
    obtain rfl := job?_states_eq hj hj'
    have hholder := (ho n).cycle_of_refreshes hj hr hwants
    rw [(hreads.holds (ho n)).1] at hholder
    exact (Option.some.inj hholder).symm
  refine ⟨hsame, fun m hm => ?_⟩
  induction m, hm using Nat.le_induction with
  | base => exact fun _ => hreads
  | succ m hm ih =>
      intro hle
      have hnow := ih (Nat.le_of_succ_le hle)
      rcases (ho m).reads_move hnow (moves m) with hnext | ⟨-, more, hmore⟩
      · exact hnext
      · have hnot := (ho m).not_ahead_of_passed (hnow.holds (ho m)).2
          (hqueued m hm (Nat.le_of_succ_le hle)) (hne (Nat.le_trans hn hm) hnow) hmore
        exact absurd (hsame ▸ hahead (m + 1) (Nat.le_succ_of_le hm) hle) hnot

-- A write sends nothing before the address has been read that was being read when it came.
theorem Issued.sent_after {a : Address} {value : CoilValue} {first sent answered ends : Nat}
    (h : Issued s moves id a value first sent answered)
    (hreads : ∀ n, first ≤ n → n ≤ ends → (s.states moves n).Reads i)
    (hturn : moves ends = .step i) : ends < sent := by
  by_contra hnot
  have hle := Nat.le_of_not_lt hnot
  rcases Nat.lt_or_eq_of_le hle with hlt | heq
  · have hreading := hreads (sent + 1) (Nat.le_succ_of_le h.order.1) hlt
    have hholder := h.holds hs (Nat.lt_succ_self sent) h.order.2
    rw [(hreading.holds (hs.states (sent + 1)).orderly).2] at hholder
    cases hholder
    exact h.not_reads (Nat.le_succ_of_le h.order.1) h.order.2 hreading
  · have hsame := h.turns.1
    rw [heq, hturn] at hsame
    cases hsame
    exact h.not_reads h.order.1 (Nat.le_of_lt h.order.2) (hreads sent h.order.1 hle)

-- A write that is ahead of another one is answered before the other one is sent.
theorem Issued.answered_before {j : TaskId} {a b : Address} {value value' : CoilValue}
    {first sent answered first' sent' answered' : Nat}
    (h : Issued s moves i a value first sent answered)
    (h' : Issued s moves j b value' first' sent' answered') (hfirst : first ≤ first')
    (hahead : (s.states moves first').transport.Ahead i j) : answered < sent' := by
  have hkept : ∀ k, first' ≤ k → k ≤ answered → (s.states moves k).transport.Ahead i j :=
    fun k hk hle => ahead_states hs hk hahead fun m hm hmk =>
      h.queued hs (Nat.le_trans hfirst (Nat.le_of_lt hm)) (Nat.le_trans hmk hle)
  have honce : ∀ k, (s.states moves k).transport.queue.Nodup :=
    fun k => (hs.states k).orderly.transport.once
  by_contra hnot
  rcases Nat.lt_or_eq_of_le (Nat.le_of_not_lt hnot) with hlt | heq
  · have hholder := h'.holds hs (Nat.lt_succ_self sent') h'.order.2
    exact (hkept (sent' + 1) (Nat.le_succ_of_le h'.order.1) hlt).not_holder (honce _) hholder
  · have hsame := h'.turns.1
    rw [heq, h.turns.2] at hsame
    injection hsame with hsame
    exact hahead.ne (honce first') hsame

-- The pump is not asked for anything between the end of the address that was being read when a write
-- came and the answer to the write.
theorem Issued.answered_before_asks {a b : Address} {value : CoilValue}
    {first sent answered ends n : Nat} (h : Issued s moves id a value first sent answered)
    (hjob : (s.states moves first).job? id = some (.write a value)) (hfirst : first ≤ ends)
    (hreads : (s.states moves ends).Reads i) (hover : ¬(s.states moves (ends + 1)).Reads i)
    (hn : ends ≤ n) (hmem : .asks b ∈ deedsSince (s.states moves n) (s.states moves (n + 1))) :
    answered < n := by
  obtain ⟨asker, hm, hasks⟩ := reads_of_asks hmem
  change (s.states moves (n + 1)).Reads asker at hasks
  have ho : (s.states moves (n + 1)).Orderly := (hs.states (n + 1)).orderly
  have hother : asker ≠ id := by
    rintro rfl
    have hlater : first ≤ n + 1 := Nat.le_succ_of_le (Nat.le_trans hfirst hn)
    exact not_reads_of_write ho (job?_states hlater hjob) hasks
  by_contra hnot
  have hle := Nat.le_of_not_lt hnot
  rcases Nat.lt_or_ge n sent with hlt | hge
  · have honce := h.readsOnce hs hjob i asker ends (n + 1) hfirst (Nat.le_succ_of_le hn) hlt hreads
      hasks
    exact hover (honce.2 (ends + 1) (Nat.le_succ ends) (Nat.succ_le_succ hn))
  · rcases Nat.lt_or_eq_of_le hle with hlt | rfl
    · have hholder := h.holds hs (Nat.lt_succ_of_le hge) hlt
      rw [(hasks.holds ho).2] at hholder
      exact hother (Option.some.inj hholder)
    · rw [h.turns.2] at hm
      injection hm with hm
      exact hother hm.symm

end

namespace WriteCall.Made

variable {c : WriteCall} (h : c.Made s moves)
include h

theorem turned (hc : c.Accepted s moves) :
    Turned c.id (s.states moves c.moment) (.awaitingWrite c.a c.value)
      (s.states moves c.moment).cycleLock ((s.states moves c.moment).transport.request c.id)
      (s.states moves c.moment).hub.cache (s.states moves c.moment).hub.lastSuccess []
      (s.states moves (c.moment + 1)) := by
  rw [states_succ h.turn, step_of_call h.job h.fresh hc]
  exact (Turned.start h.fresh).requestTransport _

-- Those who wait for the transport already are ahead of a write that comes.
theorem ahead (hc : c.Accepted s moves) (ho : (s.states moves c.moment).Orderly)
    (hi : i ∈ (s.states moves c.moment).transport.queue) :
    (s.states moves (c.moment + 1)).transport.Ahead i c.id := by
  have hqueue : (s.states moves (c.moment + 1)).transport.queue =
      (s.states moves c.moment).transport.queue ++ [c.id] := by
    rw [(h.turned hc).transport, Lock.queue_request ho.transport.fair]
  exact .of_append hi List.mem_cons_self hqueue

-- A write that comes while another one is still being served is sent after the answer to that one.
theorem answered_before (hs : s.Reachable) {a : Address} {value : CoilValue}
    {first sent answered sent' answered' : Nat}
    (hother : Issued s moves i a value first sent answered) (hc : c.Accepted s moves)
    (hissued : Issued s moves c.id c.a c.value (c.moment + 1) sent' answered')
    (hfirst : first ≤ c.moment) (hwaits : c.moment ≤ answered) : answered < sent' := by
  have hahead := h.ahead hc (hs.states c.moment).orderly (hother.queued hs hfirst hwaits).1
  exact hother.answered_before hs hissued (Nat.le_succ_of_le hfirst) hahead

-- The turn in which a write is called is not the one in which somebody has done with an address.
theorem lt_ends (ho : (s.states moves c.moment).Orderly) {ends : Nat} (hle : c.moment ≤ ends)
    (hreads : (s.states moves c.moment).Reads i) (hturn : moves ends = .step i) :
    c.moment < ends := by
  refine lt_of_le_of_ne hle fun heq => ?_
  have hsame := h.turn
  rw [heq, hturn] at hsame
  cases hsame
  exact not_reads_of_write ho h.job hreads

theorem declined (hc : ¬c.Accepted s moves) : c.Declined s moves := by
  have hcancelled : (s.states moves c.moment).hub.cancelled = true := by
    simpa [Accepted] using hc
  have hjob : (s.states moves (c.moment + 1)).job? c.id = some (.write c.a c.value) :=
    job?_states (Nat.le_succ _) h.job
  have hturned : Turned c.id (s.states moves c.moment) (.finished (.error .cancelled))
      (s.states moves c.moment).cycleLock (s.states moves c.moment).transport
      (s.states moves c.moment).hub.cache (s.states moves c.moment).hub.lastSuccess []
      (s.states moves (c.moment + 1)) := by
    rw [states_succ h.turn, step_fresh h.job h.fresh]
    simp only [begin, hcancelled, if_true]
    exact (Turned.start h.fresh).finish _
  constructor
  · rw [states_succ h.turn]
    exact hub_step_of_declined h.job h.fresh hcancelled
  · intro n hn
    have hdrift : ∀ period, Job.write c.a c.value ≠ .drift period := by simp
    have hstill := (pauses_finished hjob hdrift hturned.stage).still hn hjob hdrift hturned.stage
    exact ⟨hstill.1, hstill.2.trans (hturned.deeds_self.trans (List.append_nil _))⟩

end WriteCall.Made

section

variable (hs : s.Reachable) (hfair : s.Fair moves) (htime : s.Passes moves)
include hs hfair htime

-- Whoever reads an address has done with it at some time.
theorem exists_ends {last : Nat} (hreads : (s.states moves last).Reads i) :
    ∃ ends, last ≤ ends ∧ (∀ n, last ≤ n → n ≤ ends → (s.states moves n).Reads i) ∧
      moves ends = .step i ∧ ¬(s.states moves (ends + 1)).Reads i := by
  have ho : ∀ n, (s.states moves n).Orderly := fun n => (hs.states n).orderly
  obtain ⟨job, hjob, hr⟩ := hreads.refreshes (ho last)
  obtain ⟨ends, hpasses⟩ := passes_on hs hfair htime (hreads.holds (ho last)).2
  refine ⟨ends, hpasses.later, ?_, hpasses.turn, ?_⟩
  · intro n hn hle
    rcases (hpasses.holds n hn hle).2 with hsame | hhas
    · exact hreads.of_stage hsame
    · exact (ho n).reads_of_refreshes (job?_states hn hjob) hr hhas
  · intro hnext
    rcases hpasses.leaves with hrelease | ⟨-, cycle, hst⟩
    · have hholder := (hpasses.holds ends hpasses.later (Nat.le_refl ends)).1
      have honce := (ho ends).transport.once
      have hmem := ((ho (ends + 1)).transport.queue i).mpr hnext.wants
      rw [hrelease, Lock.queue_release (ho ends).transport.fair] at hmem
      rw [Lock.Serves.queue_of_holder hholder] at honce hmem
      exact (List.nodup_cons.mp honce).1 hmem
    · obtain ⟨cycle', revision, attempt, due, hreading⟩ := hnext
      rw [hst] at hreading
      cases hreading

theorem WriteCall.Made.served {c : WriteCall} (h : c.Made s moves) (hc : c.Accepted s moves) :
    ∃ sent answered, c.Served s moves sent answered := by
  have hjob := job?_states (Nat.le_succ c.moment) h.job
  obtain ⟨sent, answered, hissued⟩ := exists_issued hs hfair htime hjob (h.turned hc).stage
  exact ⟨sent, answered, hissued, hissued.refused, hissued.acknowledged hs⟩

theorem WriteCall.exists_services :
    ∃ sent answered : WriteCall → Nat, ∀ c : WriteCall, c.Made s moves → c.Accepted s moves →
      c.Served s moves (sent c) (answered c) := by
  have hexists : ∀ c : WriteCall, ∃ sent answered,
      c.Made s moves → c.Accepted s moves → c.Served s moves sent answered := by
    intro c
    by_cases h : c.Made s moves ∧ c.Accepted s moves
    · obtain ⟨sent, answered, hserved⟩ := h.1.served hs hfair htime h.2
      exact ⟨sent, answered, fun _ _ => hserved⟩
    · exact ⟨0, 0, fun hmade hc => absurd ⟨hmade, hc⟩ h⟩
  choose sent answered hserved using hexists
  exact ⟨sent, answered, hserved⟩

-- The writes that are called while an address is read are sent when that address has been read and
-- before the next one is, in the order in which they were called. In this way no write, whenever it
-- is called, waits for more than one address to be read.
theorem writes_between_addresses {reader : TaskId} {last : Nat} {calls : List WriteCall}
    (hreads : ∀ n ≤ last, (s.states moves n).Reads reader)
    (hcalls : ∀ c ∈ calls, c.Made s moves ∧ c.moment ≤ last)
    (horder : calls.Pairwise fun c d => c.moment < d.moment) :
    (∃ ends sent answered, last ≤ ends ∧ Between s moves reader calls ends sent answered) ∧
      ∀ c : WriteCall, c.Made s moves → c.Accepted s moves →
        ∃ sent answered, c.Served s moves sent answered ∧
          ReadsOnce s moves (c.moment + 1) sent := by
  have hjob : ∀ {c : WriteCall}, c.Made s moves →
      (s.states moves (c.moment + 1)).job? c.id = some (.write c.a c.value) :=
    fun h => job?_states (Nat.le_succ _) h.job
  constructor
  · obtain ⟨ends, hlater, hreading, hturn, hover⟩ := exists_ends hs hfair htime (hreads last le_rfl)
    have hstep : ∀ n ≤ ends, (s.states moves n).Reads reader := by
      intro n hn
      rcases Nat.le_total n last with hle | hle
      · exact hreads n hle
      · exact hreading n hle hn
    obtain ⟨sent, answered, hserved⟩ := WriteCall.exists_services hs hfair htime
    have hbefore : ∀ c ∈ calls, c.moment < ends := by
      intro c hc
      obtain ⟨hmade, hle⟩ := hcalls c hc
      exact hmade.lt_ends (hs.states c.moment).orderly (Nat.le_trans hle hlater)
        (hreads c.moment hle) hturn
    have hsent : ∀ c ∈ calls, c.Accepted s moves → ends < sent c := by
      intro c hc haccepted
      have hissued := (hserved c (hcalls c hc).1 haccepted).issued
      exact hissued.sent_after hs (fun n _ hn => hstep n hn) hturn
    refine ⟨ends, sent, answered, hlater, ⟨hstep, hturn, hover⟩,
      fun c hc hnot => (hcalls c hc).1.declined hnot,
      fun c hc haccepted => ⟨hsent c hc haccepted, hserved c (hcalls c hc).1 haccepted⟩, ?_, ?_⟩
    · refine horder.imp_of_mem ?_
      intro c d hc hd hlt hcaccepted hdaccepted
      obtain ⟨hcmade, -⟩ := hcalls c hc
      obtain ⟨hdmade, -⟩ := hcalls d hd
      have hcissued := (hserved c hcmade hcaccepted).issued
      have hdserved := hserved d hdmade hdaccepted
      have hwaits : d.moment ≤ answered c := by
        have hdbefore := hbefore d hd
        have hcsent := hsent c hc hcaccepted
        have hcanswered := hcissued.order.2
        omega
      exact hdmade.answered_before hs hcissued hdaccepted hdserved.issued hlt hwaits
    · intro n a hn hmem c hc haccepted
      obtain ⟨hmade, -⟩ := hcalls c hc
      exact (hserved c hmade haccepted).issued.answered_before_asks hs (hjob hmade) (hbefore c hc)
        (hstep ends le_rfl) hover hn hmem
  · intro c hmade hc
    obtain ⟨sent, answered, hserved⟩ := hmade.served hs hfair htime hc
    exact ⟨sent, answered, hserved, hserved.issued.readsOnce hs (hjob hmade)⟩

end

-- A refresh reads the first of its two addresses, and two writes are about to be called.
def amidFirst : System :=
  (fresh {} .f1255 { source := .echo }).play [.act (.listen "first" [1, 2] []), .spawn .refresh,
    .step 0, .step 0, .step 0, .spawn (.write 2 (.integer 7)), .spawn (.write 2 (.integer 8))]

theorem writes_between_addresses_amidFirst :
    ∃ (calls : List WriteCall) (ends : Nat) (sent answered : WriteCall → Nat),
      calls.map (fun c => (c.id, c.a, c.value, c.moment)) =
        [(1, 2, .integer 7, 0), (2, 2, .integer 8, 1)] ∧
      Between amidFirst (led (.step 1) (rota 2)) 0 calls ends sent answered :=
  let moves := led (.step 1) (rota 2)
  have hs : amidFirst.Reachable := ⟨_, _, _, _, rfl⟩
  have hfair : amidFirst.Fair moves := fair_led (fair_rota _ 2)
  have htime : amidFirst.Passes moves := passes_led (passes_rota _ 2)
  have hreads : ∀ n ≤ 1, (amidFirst.states moves n).Reads 0 := fun n hn =>
    match n, hn with
    | 0, _ => ⟨_, _, _, _, rfl⟩
    | 1, _ => ⟨_, _, _, _, rfl⟩
  have hcalls : ∀ c ∈ [(⟨1, 2, .integer 7, 0⟩ : WriteCall), ⟨2, 2, .integer 8, 1⟩],
      c.Made amidFirst moves ∧ c.moment ≤ 1 := by
    simp only [List.forall_mem_cons, List.not_mem_nil, false_imp_iff, implies_true, and_true]
    exact ⟨⟨⟨rfl, rfl, rfl⟩, Nat.zero_le 1⟩, ⟨rfl, rfl, rfl⟩, Nat.le_refl 1⟩
  let ⟨ends, sent, answered, _, hbetween⟩ :=
    (writes_between_addresses hs hfair htime hreads hcalls (by simp)).1
  ⟨_, ends, sent, answered, rfl, hbetween⟩

end CoilHub.System
