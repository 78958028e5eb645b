import CoilHub.Proofs.Cache.Agreement
import CoilHub.Proofs.Entities.Display
import CoilHub.Proofs.Interleaving.Exclusion
import CoilHub.Proofs.Interleaving.Service

namespace CoilHub

namespace Hub

-- The listeners that hear of an acknowledged write: those that watch the address by then, unless
-- nothing was cached before.
def concerned (hub : Hub) (a : Address) : List HubListener :=
  if hub.cache.isEmpty then [] else hub.registry.watching a

-- A write that is sent is recorded, and has a revision. The device has not been called by then.
def sending (hub : Hub) (a : Address) (value : CoilValue) : Hub :=
  { hub with
    cache := hub.cache.nextRevision.2
    history := .write a value :: hub.history }

variable {hub : Hub} {a : Address}

theorem mem_concerned {l : HubListener} :
    l ∈ hub.concerned a ↔
      hub.cache.isEmpty = false ∧ l ∈ hub.registry.listeners ∧ a ∈ l.interest := by
  unfold concerned
  cases hub.cache.isEmpty <;> simp [Registry.watching, AddressSet.contains_iff]

theorem sublist_concerned : (hub.concerned a).Sublist hub.registry.listeners := by
  unfold concerned
  split
  · exact List.nil_sublist _
  · exact List.filter_sublist

theorem unique_concerned (h : hub.registry.Distinct) : System.Unique (hub.concerned a) :=
  List.Nodup.sublist (sublist_concerned.map _) h

end Hub

namespace System

-- What a write makes of a system in which it is answered with an error. `gateway` is what the answer
-- leaves on the side of the device, and nothing else changes there.
structure WriteFails (id : TaskId) (a : Address) (e : FetchError) (gateway : Gateway)
    (s s' : System) : Prop where
  outcome : s'.stage? id = some (.finished (.error (.writeFailed a e)))
  deeds : s'.deeds id = s.deeds id ++ [.receives a (.error e)]
  cache : s'.hub.cache = s.hub.cache
  hub : s'.hub = wakeHolder { s.hub with gateway } s'.transport

-- What it makes of one in which it is acknowledged. The listeners find the new value in the cache. They
-- are called on the hub as the device has left it, and what they make of it is what remains.
structure WriteSucceeds (id : TaskId) (a : Address) (ack : CoilValue) (revision : UInt64)
    (gateway : Gateway) (s s' : System) : Prop where
  outcome : s'.stage? id = some (.finished (.ok (.acknowledged ack)))
  deeds : ∃ stored, s'.deeds id = s.deeds id ++
    .receives a (.ok ack) :: .offers revision a ack stored ::
      if s.hub.cache.isEmpty then []
      else [.calls { s.hub with gateway, cache := s'.hub.cache } (s.hub.concerned a)]
  cache : (revisionsIn s.log).length < 2 ^ 64 →
    s'.hub.cache.entries = s.hub.cache.entries.insert a { revision, address := a, value := ack }
  hub : ∃ called,
    Hub.Calls { s.hub with gateway, cache := s'.hub.cache } (s.hub.concerned a) called ∧
      s'.hub = wakeHolder called s'.transport
  who : ∀ l, l ∈ s.hub.concerned a ↔
    s.hub.cache.isEmpty = false ∧ l ∈ s.hub.registry.listeners ∧ a ∈ l.interest
  order : (s.hub.concerned a).Sublist s.hub.registry.listeners
  once : Unique (s.hub.concerned a)

-- How a write goes that waits for the transport at one moment of a run. It waits until it sends its
-- value, and from then on until it is answered it holds the transport, so that nobody changes what
-- is cached.
structure Issued (s : System) (moves : Nat → Move) (id : TaskId) (a : Address) (value : CoilValue)
    (first sent answered : Nat) : Prop where
  order : first ≤ sent ∧ sent < answered
  turns : moves sent = .step id ∧ moves answered = .step id
  waits : ∀ n, first ≤ n → n ≤ sent → (s.states moves n).stage? id = some (.awaitingWrite a value)
  sends : deedsSince (s.states moves sent) (s.states moves (sent + 1)) =
    [.reserves (s.states moves sent).hub.cache.nextRevision.1, .sends a value]
  hub : (s.states moves (sent + 1)).hub = (s.states moves sent).hub.sending a value
  calls : ∀ n, sent < n → n ≤ answered →
    (s.states moves n).stage? id =
        some (.writing a value (s.states moves sent).hub.cache.nextRevision.1
          (!(s.states moves sent).hub.cache.isEmpty)) ∧
      (s.states moves n).deeds id = (s.states moves sent).deeds id ++
        [.reserves (s.states moves sent).hub.cache.nextRevision.1, .sends a value] ∧
      (s.states moves n).hub.cache.entries = (s.states moves sent).hub.cache.entries

-- A write in a run. It is sent by one of its turns and answered by the next one, in which the device is
-- called. Its other turns leave the hub alone.
structure Written (s : System) (moves : Nat → Move) (id : TaskId) (a : Address) (value : CoilValue)
    (revision : UInt64) (sent answered : Nat) : Prop where
  later : sent < answered
  turns : moves sent = .step id ∧ moves answered = .step id
  before : ∀ n ≤ sent, (s.states moves n).deeds id = []
  sends : (s.states moves (sent + 1)).hub = (s.states moves sent).hub.sending a value
  during : ∀ n, sent < n → n ≤ answered →
    (s.states moves n).deeds id = [.reserves revision, .sends a value] ∧
      (s.states moves n).hub.cache.entries = (s.states moves sent).hub.cache.entries
  refused : ∀ e gateway,
    (s.states moves answered).hub.gateway.write a value = (.error e, gateway) →
      WriteFails id a e gateway (s.states moves answered) (s.states moves (answered + 1))
  acknowledged : ∀ ack gateway,
    (s.states moves answered).hub.gateway.write a value = (.ok ack, gateway) →
      WriteSucceeds id a ack revision gateway (s.states moves answered)
        (s.states moves (answered + 1))
  after : ∀ n, answered < n →
    (s.states moves n).stage? id = (s.states moves (answered + 1)).stage? id ∧
      (s.states moves n).deeds id = (s.states moves (answered + 1)).deeds id
  otherwise : ∀ n, moves n = .step id → n ≠ sent → n ≠ answered →
    (s.states moves (n + 1)).hub = (s.states moves n).hub

variable {s : System} {id : TaskId} {a : Address} {value : CoilValue}

theorem step_of_call (hjob : s.job? id = some (.write a value)) (hst : s.stage? id = some .fresh)
    (hc : s.hub.cancelled = false) :
    s.step id = s.requestTransport id (.awaitingWrite a value) := by
  rw [step_fresh hjob hst]
  simp [begin, hc]

theorem step_awaitingWrite (hst : s.stage? id = some (.awaitingWrite a value))
    (he : s.enabled id = true) : s.step id = s.beginWrite id a value := by
  obtain ⟨t, ht, hstage⟩ := Option.map_eq_some_iff.mp hst
  simp [step, ht, hstage, he]

theorem step_writing {revision : UInt64} {hadData : Bool}
    (hst : s.stage? id = some (.writing a value revision hadData)) :
    s.step id = ({ s with hub := (s.hub.finishWrite a value).2 }.note id
      (.receives a (s.hub.finishWrite a value).1)).writeAnswered id a revision hadData
        (s.hub.finishWrite a value).1 := by
  obtain ⟨t, ht, hstage⟩ := Option.map_eq_some_iff.mp hst
  simp [step, enabled, ht, hstage]

theorem turned_sends (hst : s.stage? id = some (.awaitingWrite a value))
    (he : s.enabled id = true) :
    Turned id s (.writing a value s.hub.cache.nextRevision.1 (!s.hub.cache.isEmpty)) s.cycleLock
      s.transport s.hub.cache.nextRevision.2 s.hub.lastSuccess
      [.reserves s.hub.cache.nextRevision.1, .sends a value] (s.step id) := by
  have hreserved := (Turned.start hst).reserve
  have hbegun := hreserved.mapHub (f := (·.beginWrite a value)) (.of_eq rfl rfl rfl rfl rfl rfl rfl)
  rw [step_awaitingWrite hst he]
  exact (hbegun.note (.sends a value)).setStage _

theorem hub_step_sends (hst : s.stage? id = some (.awaitingWrite a value))
    (he : s.enabled id = true) : (s.step id).hub = s.hub.sending a value := by
  rw [step_awaitingWrite hst he]
  rfl

theorem finishWrite_eq {hub : Hub} {result : FetchResult CoilValue} {gateway : Gateway}
    (hwrite : hub.gateway.write a value = (result, gateway)) :
    hub.finishWrite a value = (result, { hub with gateway }) := by
  unfold Hub.finishWrite
  rw [hwrite]

theorem writeFails_step {revision : UInt64} {hadData : Bool} {e : FetchError} {gateway : Gateway}
    (hst : s.stage? id = some (.writing a value revision hadData))
    (hwrite : s.hub.gateway.write a value = (.error e, gateway)) :
    WriteFails id a e gateway s (s.step id) := by
  have hcalled := (Turned.start hst).mapHub (f := fun hub => { hub with gateway })
    (.of_eq rfl rfl rfl rfl rfl rfl rfl)
  have hanswered := (hcalled.note (.receives a (.error e))).releaseTransport.finish
    (.error (.writeFailed a e))
  rw [step_writing hst, finishWrite_eq hwrite]
  exact ⟨hanswered.stage, hanswered.deeds_self, hanswered.cache_eq, rfl⟩

-- The listeners have been called that are concerned, with the answer in the cache.
theorem writeSucceeds_of_called (hs : s.Reachable) {gateway : Gateway} {found : Hub}
    {revision : UInt64} {ack : CoilValue} {next : Cache} {stored : Bool} {stage : Stage}
    {called : System}
    (hentries : (revisionsIn s.log).length < 2 ^ 64 →
      next.entries = s.hub.cache.entries.insert a { revision, address := a, value := ack })
    (hfound : found = { s.hub with gateway, cache := next })
    (hcalled : found.Calls (s.hub.concerned a) called.hub)
    (h : Turned id s stage s.cycleLock s.transport next s.hub.lastSuccess
      (.receives a (.ok ack) :: .offers revision a ack stored ::
        if s.hub.cache.isEmpty then [] else [.calls found (s.hub.concerned a)]) called) :
    WriteSucceeds id a ack revision gateway s
      (called.releaseTransport.finish id (.ok (.acknowledged ack))) := by
  have hanswered := h.releaseTransport.finish (.ok (.acknowledged ack))
  refine ⟨hanswered.stage, ⟨stored, ?_⟩, ?_, ⟨called.hub, ?_, rfl⟩, fun l => Hub.mem_concerned,
    Hub.sublist_concerned, Hub.unique_concerned hs.documented.unique⟩
  · rw [hanswered.cache_eq, ← hfound]
    exact hanswered.deeds_self
  · exact fun hcount => (congrArg Cache.entries hanswered.cache_eq).trans (hentries hcount)
  · rw [hanswered.cache_eq, ← hfound]
    exact hcalled

-- What follows on an acknowledgement, whether the value has been stored or not.
theorem writeSucceeds_of_store (hs : s.Reachable) {gateway : Gateway} {revision : UInt64}
    {hadData : Bool} {ack : CoilValue} {next : Cache} {stored : Bool} {m : System}
    (hst : s.stage? id = some (.writing a value revision hadData))
    (hentries : (revisionsIn s.log).length < 2 ^ 64 →
      next.entries = s.hub.cache.entries.insert a { revision, address := a, value := ack })
    (hm : m.hub = { s.hub with gateway, cache := next })
    (h : Turned id s (.writing a value revision hadData) s.cycleLock s.transport next
      s.hub.lastSuccess [.receives a (.ok ack), .offers revision a ack stored] m) :
    WriteSucceeds id a ack revision gateway s
      (((if hadData then m.callEach id (m.hub.registry.watching a) else m).releaseTransport).finish
        id (.ok (.acknowledged ack))) := by
  have hregistry : m.hub.registry = s.hub.registry := by rw [hm]
  obtain rfl := hs.informed id a value revision hadData hst
  apply writeSucceeds_of_called hs hentries hm
  · unfold Hub.concerned
    rw [← hregistry]
    cases s.hub.cache.isEmpty with
    | true => exact .nobody
    | false => exact Hub.calls_callEach m.hub _
  · cases hempty : s.hub.cache.isEmpty with
    | true => exact h
    | false =>
        have hwatching : s.hub.concerned a = m.hub.registry.watching a := by
          rw [hregistry]
          exact if_neg (by simp [hempty])
        rw [hwatching]
        exact h.callEach (m.hub.registry.watching a)

theorem writeSucceeds_step (hs : s.Reachable) {revision : UInt64} {hadData : Bool} {ack : CoilValue}
    {gateway : Gateway} (hst : s.stage? id = some (.writing a value revision hadData))
    (hwrite : s.hub.gateway.write a value = (.ok ack, gateway)) :
    WriteSucceeds id a ack revision gateway s (s.step id) := by
  let m := ({ s with hub := { s.hub with gateway } } : System).note id (.receives a (.ok ack))
  have hanswered : Turned id s (.writing a value revision hadData) s.cycleLock s.transport
      s.hub.cache s.hub.lastSuccess [.receives a (.ok ack)] m :=
    ((Turned.start hst).mapHub (f := fun hub => { hub with gateway })
      (.of_eq rfl rfl rfl rfl rfl rfl rfl)).note _
  have hnewer : (revisionsIn s.log).length < 2 ^ 64 → s.hub.cache.store? revision a ack =
      some { s.hub.cache with
        entries := s.hub.cache.entries.insert a { revision, address := a, value := ack } } :=
    fun hcount => Cache.store?_of_newer ack fun e he => hs.newer hcount hst rfl he
  rw [step_writing hst, finishWrite_eq hwrite]
  show WriteSucceeds id a ack revision gateway s
    (m.writeAnswered id a revision hadData (.ok ack))
  unfold writeAnswered store
  dsimp only
  rw [hanswered.cache_eq]
  cases hstore : s.hub.cache.store? revision a ack with
  | some next =>
      refine writeSucceeds_of_store hs hst (fun hcount => ?_) rfl
        ((hanswered.setCache next).note (.offers revision a ack true))
      rw [hnewer hcount] at hstore
      cases hstore
      rfl
  | none =>
      refine writeSucceeds_of_store hs hst (fun hcount => ?_) rfl
        (hanswered.note (.offers revision a ack false))
      rw [hnewer hcount] at hstore
      cases hstore

theorem finished_of_writing (hs : s.Reachable) {revision : UInt64} {hadData : Bool}
    (hst : s.stage? id = some (.writing a value revision hadData)) :
    ∃ outcome, (s.step id).stage? id = some (.finished outcome) := by
  obtain ⟨result, gateway, hwrite⟩ :
      ∃ result gateway, s.hub.gateway.write a value = (result, gateway) := ⟨_, _, rfl⟩
  cases result with
  | error e => exact ⟨_, (writeFails_step hst hwrite).outcome⟩
  | ok ack => exact ⟨_, (writeSucceeds_step hs hst hwrite).outcome⟩

variable {moves : Nat → Move}

section

variable {first sent answered : Nat} (h : Issued s moves id a value first sent answered)
include h

theorem Issued.refused (e : FetchError) (gateway : Gateway)
    (hwrite : (s.states moves answered).hub.gateway.write a value = (.error e, gateway)) :
    WriteFails id a e gateway (s.states moves answered) (s.states moves (answered + 1)) := by
  rw [states_succ h.turns.2]
  exact writeFails_step (h.calls answered h.order.2 (Nat.le_refl answered)).1 hwrite

theorem Issued.acknowledged (hs : s.Reachable) (ack : CoilValue) (gateway : Gateway)
    (hwrite : (s.states moves answered).hub.gateway.write a value = (.ok ack, gateway)) :
    WriteSucceeds id a ack (s.states moves sent).hub.cache.nextRevision.1 gateway
      (s.states moves answered) (s.states moves (answered + 1)) := by
  rw [states_succ h.turns.2]
  exact writeSucceeds_step (hs.states answered) (h.calls answered h.order.2 (Nat.le_refl answered)).1
    hwrite

theorem Issued.finished (hs : s.Reachable) :
    ∃ outcome, (s.states moves (answered + 1)).stage? id = some (.finished outcome) := by
  rw [states_succ h.turns.2]
  exact finished_of_writing (hs.states answered) (h.calls answered h.order.2 (Nat.le_refl answered)).1

-- A turn in which a write only waits is no turn at all, and while it is under way it has no other one
-- than that of the answer.
theorem Issued.hub_otherwise (hs : s.Reachable)
    (hjob : (s.states moves first).job? id = some (.write a value)) {n : Nat} (hn : first ≤ n)
    (hturn : moves n = .step id) (hsent : n ≠ sent) (hanswered : n ≠ answered) :
    (s.states moves (n + 1)).hub = (s.states moves n).hub := by
  have hdrift : ∀ period, Job.write a value ≠ .drift period := nofun
  have hidle : (s.states moves n).enabled id = false →
      (s.states moves (n + 1)).hub = (s.states moves n).hub := by
    intro he
    rw [states_succ hturn, step_of_not_enabled he]
  rcases Nat.lt_or_ge n sent with hlt | hge
  · refine hidle ?_
    by_contra he
    have hnext := h.waits (n + 1) (Nat.le_succ_of_le hn) hlt
    rw [states_succ hturn] at hnext
    have hsends := (turned_sends (h.waits n hn (Nat.le_of_lt hlt)) (by simpa using he)).stage
    rw [hnext] at hsends
    cases hsends
  · rcases Nat.lt_or_ge n answered with hlt | hge'
    · have hlater := Nat.lt_of_le_of_ne hge (Ne.symm hsent)
      have hnow := (h.calls n hlater (Nat.le_of_lt hlt)).1
      have hnext := (h.calls (n + 1) (Nat.le_succ_of_le hlater) hlt).1
      rw [states_succ hturn] at hnext
      obtain ⟨outcome, hfinished⟩ := finished_of_writing (hs.states n) hnow
      rw [hfinished] at hnext
      cases hnext
    · obtain ⟨outcome, hfinished⟩ := h.finished hs
      have hjob' : (s.states moves (answered + 1)).job? id = some (.write a value) :=
        job?_states (Nat.le_trans h.order.1 (Nat.le_succ_of_le (Nat.le_of_lt h.order.2))) hjob
      have hlater := Nat.lt_of_le_of_ne hge' (Ne.symm hanswered)
      have hstill := (pauses_finished hjob' hdrift hfinished).still hlater hjob' hdrift hfinished
      exact hidle (not_enabled_of_finished hstill.1)

end

section

variable (hs : s.Reachable) (hfair : s.Fair moves) (htime : s.Passes moves)
include hs hfair htime

-- Whoever waits in order to write does write.
theorem exists_sent {n : Nat} (hst : (s.states moves n).stage? id = some (.awaitingWrite a value)) :
    ∃ k, n ≤ k ∧ Pauses s moves id n k ∧ moves k = .step id ∧
      (s.states moves k).enabled id = true := by
  apply exists_turn
  by_contra hnever
  push Not at hnever
  have hqueued : id ∈ (s.states moves n).transport.queue := by
    rw [(hs.states n).orderly.transport.queue]
    simp [isAt, hst, Stage.wantsTransport]
  obtain ⟨k, hk, hholder⟩ := obtains_transport hs hfair htime hqueued
  obtain ⟨m, hm⟩ := holder_goes_on hs hfair htime hholder
  exact hm fun j hj hlt => hnever m j (Nat.le_trans hk hj) hlt

theorem exists_issued {first : Nat} (hjob : (s.states moves first).job? id = some (.write a value))
    (hst : (s.states moves first).stage? id = some (.awaitingWrite a value)) :
    ∃ sent answered, Issued s moves id a value first sent answered := by
  have hdrift : ∀ period, Job.write a value ≠ .drift period := nofun
  obtain ⟨sent, hfirst, hwaits, hsends, hsent⟩ := exists_sent hs hfair htime hst
  have hwaiting : ∀ n, first ≤ n → n ≤ sent →
      (s.states moves n).stage? id = some (.awaitingWrite a value) :=
    fun n hn hle => ((hwaits.mono hle).still hn hjob hdrift hst).1
  have hturned := turned_sends (hwaiting sent hfirst (Nat.le_refl sent)) hsent
  rw [← states_succ hsends] at hturned
  have hholder := (hs.states (sent + 1)).orderly.holder_of_writing hturned.stage
  obtain ⟨answered, hlater, hpauses, hanswers, -⟩ :=
    exists_turn (holder_goes_on hs hfair htime hholder)
  have hhub := hub_step_sends (hwaiting sent hfirst (Nat.le_refl sent)) hsent
  rw [← states_succ hsends] at hhub
  refine ⟨sent, answered, ⟨hfirst, hlater⟩, ⟨hsends, hanswers⟩, hwaiting,
    deedsSince_of_log_eq hturned.log_eq, hhub, ?_⟩
  intro n hn hle
  obtain ⟨hstage, hdeeds⟩ := (hpauses.mono hle).still hn
    (job?_states (Nat.le_succ_of_le hfirst) hjob) hdrift hturned.stage
  have hcache := ((hpauses.mono hle).holds hs hn hholder).2.1
  refine ⟨hstage, by rw [hdeeds, hturned.deeds_self], ?_⟩
  rw [hcache, hturned.cache_eq]
  rfl

-- A write that is called before a shutdown sends its value exactly once and is answered. If the
-- answer is a failure then nothing changes and nobody hears of it. If it is an acknowledgement then
-- the acknowledged value is all that changes in the cache, and those who watch the address by then
-- are called.
theorem written_of_call (hjob : s.job? id = some (.write a value)) (hst : s.stage? id = some .fresh)
    (hc : s.hub.cancelled = false) (hcall : moves 0 = .step id) :
    ∃ revision sent answered, Written s moves id a value revision sent answered := by
  have hdrift : ∀ period, Job.write a value ≠ .drift period := nofun
  have hjobs : ∀ n, (s.states moves n).job? id = some (.write a value) :=
    fun n => job?_states (Nat.zero_le n) hjob
  have hsilent : ∀ {n stage}, (s.states moves n).stage? id = some stage → stage.isSilent = true →
      (s.states moves n).deeds id = [] := by
    intro n stage hstage hquiet
    apply (hs.states n).audible.silent
    rw [hstage]
    exact hquiet
  have hqueued : (s.states moves 1).stage? id = some (.awaitingWrite a value) := by
    rw [states_succ hcall]
    show (s.step id).stage? id = _
    rw [step_of_call hjob hst hc]
    exact ((Turned.start hst).requestTransport _).stage
  obtain ⟨sent, answered, hissued⟩ := exists_issued hs hfair htime (hjobs 1) hqueued
  have hbefore : ∀ n ≤ sent, (s.states moves n).deeds id = [] := by
    intro n hn
    cases n with
    | zero => exact hsilent hst rfl
    | succ n => exact hsilent (hissued.waits (n + 1) (Nat.le_add_left 1 n) hn) rfl
  refine ⟨(s.states moves sent).hub.cache.nextRevision.1, sent, answered, hissued.order.2,
    hissued.turns, hbefore, hissued.hub, ?_, hissued.refused, hissued.acknowledged hs, ?_, ?_⟩
  · intro n hn hle
    obtain ⟨-, hdeeds, hcache⟩ := hissued.calls n hn hle
    rw [hdeeds, hbefore sent (Nat.le_refl sent)]
    exact ⟨rfl, hcache⟩
  · intro n hn
    obtain ⟨outcome, hfinished⟩ := hissued.finished hs
    rw [hfinished]
    exact (pauses_finished (hjobs (answered + 1)) hdrift hfinished).still hn (hjobs (answered + 1))
      hdrift hfinished
  · intro n hturn hsent hanswered
    cases n with
    | zero =>
        rw [states_succ hcall]
        show (s.step id).hub = s.hub
        rw [step_of_call hjob hst hc]
        rfl
    | succ n =>
        exact hissued.hub_otherwise hs (hjobs 1) (Nat.le_add_left 1 n) hturn hsent hanswered

end

-- A write that is called while a refresh is between its two addresses and waits for the second one.
def betweenReads : System :=
  (fresh {} .f1255 { source := .echo }).play [.act (.listen "first" [1, 2] []), .spawn .refresh,
    .step 0, .step 0, .step 0, .step 0, .spawn (.write 1 (.integer 7))]

theorem written_of_call_betweenReads :
    betweenReads.job? 1 = some (.write 1 (.integer 7)) ∧ betweenReads.stage? 1 = some .fresh ∧
      betweenReads.hub.cancelled = false ∧ betweenReads.transport.holder = some 0 ∧
      betweenReads.hub.cache.values = [(1, .integer 1)] ∧
      (∃ revision sent answered,
        Written betweenReads (rota 1) 1 1 (.integer 7) revision sent answered) ∧
      (betweenReads.states (rota 1) 27).hub.history =
        [.called (.named "first") [some (.integer 7), some (.integer 2)], .write 1 (.integer 7),
          .called (.named "first") [some (.integer 1), some (.integer 2)], .read 2, .read 1] :=
  ⟨rfl, rfl, rfl, rfl, rfl, written_of_call ⟨_, _, _, _, rfl⟩ (fair_rota _ 1) (passes_rota _ 1) rfl
    rfl rfl rfl, by decide +kernel⟩

end System

end CoilHub
