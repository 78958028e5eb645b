import CoilHub.Proofs.Interleaving.Outside
import CoilHub.Proofs.Refresh.Course

namespace CoilHub

namespace Gateway

-- What the device has at an address.
def value? (g : Gateway) (a : Address) : Option CoilValue := g.pump?.bind (·.value? a)

-- The device is still there and has the same values.
structure Like (before after : Gateway) : Prop where
  pump : after.pump?.isSome = before.pump?.isSome
  acks : after.acks = before.acks
  value : ∀ a, after.value? a = before.value? a

variable (g : Gateway)

theorem Like.refl : g.Like g := ⟨rfl, rfl, fun _ => rfl⟩

theorem like_mapPump {f : Pump → Pump} (hf : ∀ (p : Pump) a, (f p).value? a = p.value? a) :
    g.Like (g.mapPump f) := by
  unfold mapPump
  cases hsource : g.source with
  | echo => exact .refl g
  | pump p =>
      refine ⟨by simp [pump?, hsource], rfl, fun a => ?_⟩
      simp [value?, pump?, hsource, hf]

theorem like_finishRead (a : Address) : g.Like (g.finishRead a).2 := by
  cases hsource : g.source with
  | echo => simpa [finishRead, hsource] using Like.refl g
  | pump p =>
      have hvalue : ∀ b, (p.finishRead a).2.value? b = p.value? b := by
        intro b
        unfold Pump.finishRead
        split
        · rfl
        · split <;> rfl
      refine ⟨by simp [finishRead, pump?, hsource], by simp [finishRead, hsource], fun b => ?_⟩
      simp [finishRead, value?, pump?, hsource, hvalue]

-- A write that fails changes no value.
theorem like_write {a : Address} {value : CoilValue} {e : FetchError}
    (h : (g.write a value).1 = .error e) : g.Like (g.write a value).2 := by
  cases hsource : g.source with
  | echo => simp [write, hsource] at h
  | pump p =>
      cases hw : p.write a value with
      | mk result q =>
          cases result with
          | ok ack => simp [write, hsource, hw] at h
          | error fault =>
              have hvalue : ∀ b, q.value? b = p.value? b := by
                intro b
                unfold Pump.write at hw
                split at hw
                · cases hw
                  rfl
                · split at hw
                  · cases hw
                    rfl
                  · split at hw <;> cases hw
                    rfl
              refine ⟨by simp [write, pump?, hsource, hw], by simp [write, hsource, hw], fun b => ?_⟩
              simp [write, value?, pump?, hsource, hw, hvalue]

theorem like_start : g.Like g.start.2 := by
  unfold start
  split
  · exact ⟨rfl, rfl, fun _ => rfl⟩
  · exact g.like_mapPump fun _ _ => rfl

end Gateway

namespace Hub

-- What somebody changes who leaves the cached values, the listeners, the displays and the device
-- alone.
structure Quiet (before after : Hub) : Prop where
  entries : after.cache.entries = before.cache.entries
  registry : after.registry = before.registry
  displays : after.displays = before.displays
  gateway : before.gateway.Like after.gateway

variable {hub : Hub}

theorem Quiet.of_gateway {after : Hub} (hgateway : hub.gateway.Like after.gateway)
    (hentries : after.cache.entries = hub.cache.entries) (hregistry : after.registry = hub.registry)
    (hdisplays : after.displays = hub.displays) : hub.Quiet after :=
  ⟨hentries, hregistry, hdisplays, hgateway⟩

theorem Quiet.of_eq {after : Hub} (hgateway : after.gateway = hub.gateway)
    (hentries : after.cache.entries = hub.cache.entries) (hregistry : after.registry = hub.registry)
    (hdisplays : after.displays = hub.displays) : hub.Quiet after :=
  ⟨hentries, hregistry, hdisplays, hgateway ▸ .refl _⟩

theorem quiet_mapPump {f : Pump → Pump} (hf : ∀ (p : Pump) a, (f p).value? a = p.value? a) :
    hub.Quiet (hub.mapPump f) :=
  .of_gateway (hub.gateway.like_mapPump hf) rfl rfl rfl

theorem quiet_requestRefresh : hub.Quiet hub.requestRefresh := by
  unfold requestRefresh
  split <;> exact .of_eq rfl rfl rfl rfl

theorem value?_repeat {f : Pump → Pump} (hf : ∀ (p : Pump) a, (f p).value? a = p.value? a)
    (times : Nat) (p : Pump) (a : Address) : (times.repeat f p).value? a = p.value? a := by
  induction times with
  | zero => rfl
  | succ n ih => exact (hf _ a).trans ih

-- A property of hubs that lists of listeners cannot break if they are of a certain kind, as those
-- of the registry are. Listeners are judged by their effects, and scripts by their actions.
structure Lasting (P : Hub → Prop) (K : List HubListener → Prop) (Safe : Effect → Prop)
    (Mild : Action → Prop) : Prop where
  quiet : ∀ {hub after : Hub}, P hub → hub.Quiet after → P after
  registry : ∀ {hub : Hub}, P hub → K hub.registry.listeners
  safe : ∀ {ls : List HubListener}, K ls → ∀ l ∈ ls, Safe l.reaction.effect
  mild : ∀ {counter actions}, Safe (.script counter actions) → ∀ entry ∈ actions, Mild entry.2
  display : ∀ {hub : Hub} {index a}, P hub → Safe (.display index a) → P (hub.refreshDisplay index a)
  listen : ∀ {hub : Hub} {name interest actions}, P hub → Mild (.listen name interest actions) →
    P (hub.listen name interest actions)
  unlisten : ∀ {hub : Hub} {name}, P hub → P (hub.deregister (.named name))
  setValue : ∀ {hub : Hub} {a value}, P hub → Mild (.setValue a value) →
    P (hub.mapPump (·.setValue a value))

namespace Lasting

variable {P : Hub → Prop} {K : List HubListener → Prop} {Safe : Effect → Prop} {Mild : Action → Prop}
  (hP : Lasting P K Safe Mild)
include hP

theorem perform {notify : Hub → Hub} (hnotify : ∀ hub, P hub → P (notify hub)) (h : P hub)
    {action : Action} (hmild : Mild action) : P (perform notify hub action) := by
  cases action with
  | listen name interest actions => exact hP.listen h hmild
  | unlisten name => exact hP.unlisten h
  | setValue a value => exact hP.setValue h hmild
  | failRead a e times =>
      have hvalue : ∀ (p : Pump) b, (p.failRead a e).value? b = p.value? b := fun _ _ => rfl
      exact hP.quiet h (quiet_mapPump (value?_repeat hvalue times))
  | failWrite a e times =>
      have hvalue : ∀ (p : Pump) b, (p.failWrite a e).value? b = p.value? b := fun _ _ => rfl
      exact hP.quiet h (quiet_mapPump (value?_repeat hvalue times))
  | cancel => exact hP.quiet h (.of_eq rfl rfl rfl rfl)
  | requestRefresh => exact hP.quiet h quiet_requestRefresh
  | notify => exact hnotify hub h

theorem react {notify : Hub → Hub} (hnotify : ∀ hub, P hub → P (notify hub)) (h : P hub)
    {effect : Effect} (hsafe : Safe effect) : P (react notify hub effect) := by
  cases effect with
  | display index a => exact hP.display h hsafe
  | script counter actions =>
      unfold Hub.react
      apply List.foldlRecOn (motive := P)
      · exact hP.quiet h (.of_eq rfl rfl rfl rfl)
      · rintro hub h ⟨on, action⟩ hmem
        dsimp only
        split
        · exact hP.perform hnotify h (hP.mild hsafe _ hmem)
        · exact h

-- The induction is on how deep listeners may still notify one another.
theorem callWithin (depth : Nat) (h : P hub) {l : HubListener} (hl : Safe l.reaction.effect) :
    P (callWithin depth hub l) := by
  induction depth generalizing hub l with
  | zero => exact h
  | succ depth ih =>
      have hnotify : ∀ hub, P hub → P (hub.registry.listeners.foldl (Hub.callWithin depth) hub) := by
        intro hub h
        have hsafe := hP.safe (hP.registry h)
        apply List.foldlRecOn (motive := P) _ _ h
        exact fun hub h l hmem => ih h (hsafe l hmem)
      have hemitted : P (hub.emit (.called l.handle (l.reaction.looksAt.map hub.cache.get?))) :=
        hP.quiet h (.of_eq rfl rfl rfl rfl)
      exact hP.react hnotify hemitted hl

theorem callEach (h : P hub) {ls : List HubListener} (hls : ∀ l ∈ ls, Safe l.reaction.effect) :
    P (hub.callEach ls) := by
  unfold Hub.callEach
  apply List.foldlRecOn (motive := P) _ _ h
  exact fun hub h l hmem => hP.callWithin (hub.nesting + 1) h (hls l hmem)

theorem act (h : P hub) {action : Action} (hmild : Mild action) : P (hub.act action) := by
  apply hP.perform _ h hmild
  exact fun hub h => hP.callEach h (hP.safe (hP.registry h))

end Lasting

end Hub

namespace System

variable {P : Hub → Prop} {K : List HubListener → Prop} {Safe : Effect → Prop} {Mild : Action → Prop}
  {s m : System} {id : TaskId}

-- The listeners of the refreshes that are under way are of that kind.
def Casts (K : List HubListener → Prop) (s : System) : Prop :=
  ∀ id stage cycle, s.stage? id = some stage → stage.cycle? = some cycle → K cycle.listeners

structure Steady (P : Hub → Prop) (K : List HubListener → Prop) (s : System) : Prop where
  hub : P s.hub
  casts : s.Casts K

theorem Casts.of_stages (h : m.Casts K) {m' : System} (hstages : ∀ id, m'.stage? id = m.stage? id) :
    m'.Casts K :=
  fun id stage cycle hst => h id stage cycle ((hstages id).symm.trans hst)

theorem Casts.setStage (h : m.Casts K) {stage : Stage}
    (hstage : ∀ cycle, stage.cycle? = some cycle → K cycle.listeners) :
    (m.setStage id stage).Casts K := by
  intro j stage' cycle hst hcycle
  unfold System.setStage at hst
  rw [stage?_mapTask] at hst
  split at hst
  · obtain ⟨t, -, rfl⟩ := Option.map_eq_some_iff.mp hst
    exact hstage cycle hcycle
  · exact h j stage' cycle hst hcycle

namespace Steady

theorem setStage (h : m.Steady P K) {stage : Stage}
    (hstage : ∀ cycle, stage.cycle? = some cycle → K cycle.listeners) :
    (m.setStage id stage).Steady P K :=
  ⟨h.hub, h.casts.setStage hstage⟩

theorem finish (h : m.Steady P K) (outcome : Outcome) : (m.finish id outcome).Steady P K :=
  h.setStage nofun

theorem mapHub (h : m.Steady P K) {f : Hub → Hub} (hf : P (f m.hub)) : (m.mapHub f).Steady P K :=
  ⟨hf, h.casts⟩

theorem note (h : m.Steady P K) (deed : Deed) : (m.note id deed).Steady P K := ⟨h.hub, h.casts⟩

theorem setTimers (h : m.Steady P K) (nextTick ticks : Task → Nat) :
    (m.mapTask id fun t => { t with nextTick := nextTick t, ticks := ticks t }).Steady P K := by
  refine ⟨h.hub, h.casts.of_stages fun j => ?_⟩
  rw [stage?_mapTask]
  split
  case isTrue hj => rfl
  case isFalse hj => rfl

theorem requestCycle (h : m.Steady P K) : (m.requestCycle id).Steady P K := by
  have hlock : ({ m with cycleLock := m.cycleLock.request id } : System).Steady P K :=
    ⟨h.hub, h.casts⟩
  exact hlock.setStage nofun

theorem requestTransport (h : m.Steady P K) {stage : Stage}
    (hstage : ∀ cycle, stage.cycle? = some cycle → K cycle.listeners) :
    (m.requestTransport id stage).Steady P K := by
  have hlock : ({ m with transport := m.transport.request id } : System).Steady P K :=
    ⟨h.hub, h.casts⟩
  exact hlock.setStage hstage

section

variable (hP : Hub.Lasting P K Safe Mild) (h : m.Steady P K)
include hP h

theorem quiet {m' : System} (hquiet : m.hub.Quiet m'.hub)
    (hstages : ∀ id, m'.stage? id = m.stage? id) : m'.Steady P K :=
  ⟨hP.quiet h.hub hquiet, h.casts.of_stages hstages⟩

theorem callEach {ls all : List HubListener} (hall : K all) (hls : ∀ l ∈ ls, l ∈ all) :
    (m.callEach id ls).Steady P K :=
  ⟨hP.callEach h.hub fun l hmem => hP.safe hall l (hls l hmem), h.casts⟩

omit h hP in
theorem quiet_wakeHolder (hub : Hub) (lock : Lock) : hub.Quiet (wakeHolder hub lock) := by
  unfold wakeHolder
  split <;> exact .of_eq rfl rfl rfl rfl

theorem releaseCycle : m.releaseCycle.Steady P K :=
  h.quiet hP (quiet_wakeHolder _ _) fun _ => rfl

theorem releaseTransport : m.releaseTransport.Steady P K :=
  h.quiet hP (quiet_wakeHolder _ _) fun _ => rfl

theorem doorbell (bell : Doorbell) : ({ m with hub.doorbell := bell } : System).Steady P K :=
  h.quiet hP (.of_eq rfl rfl rfl rfl) fun _ => rfl

theorem rest : (m.rest id).Steady P K := by
  have hidle : (m.setStage id .idle).Steady P K := h.setStage nofun
  unfold System.rest
  dsimp only
  split
  · exact hidle
  · exact hidle.doorbell hP _

theorem leaveDoorbell : (m.leaveDoorbell id).Steady P K := by
  have hleft := h.doorbell hP
  unfold System.leaveDoorbell
  dsimp only
  split
  · exact (hleft _).quiet hP Hub.quiet_requestRefresh fun _ => rfl
  · exact hleft _

theorem answerBell : (m.answerBell id).Steady P K := by
  unfold System.answerBell
  dsimp only
  split <;> exact h.doorbell hP _

theorem setSuccess (success : Bool) :
    (m.mapHub fun hub => { hub with lastSuccess := success }).Steady P K :=
  h.quiet hP (.of_eq rfl rfl rfl rfl) fun _ => rfl

theorem keepOutcome (result : RefreshResult) : (m.keepOutcome id result).Steady P K := by
  have hfailed : (m.recordFailure id).Steady P K := by
    unfold System.recordFailure
    split
    · have hsuccess := h.setSuccess hP false
      exact hsuccess.callEach hP (hP.registry hsuccess.hub) fun _ hmem => hmem
    · exact h
  match result with
  | .ok _ => exact h.setSuccess hP true
  | .error .cancelled => exact h
  | .error (.refreshFailed _ _) => exact hfailed
  | .error (.writeFailed _ _) => exact hfailed
  | .error (.startFailed _) => exact hfailed

theorem conclude (result : RefreshResult) : (m.conclude id result).Steady P K := by
  have hnoted : (m.note id (.returns result)).Steady P K := h.note (.returns result)
  have hkept : ((m.note id (.returns result)).keepOutcome id result).Steady P K :=
    hnoted.keepOutcome hP result
  unfold System.conclude
  dsimp only
  split
  · exact hkept.finish _
  · match result with
    | .ok _ => exact hkept.rest hP
    | .error .cancelled => exact hkept.finish _
    | .error (.refreshFailed _ _) => exact hkept.rest hP
    | .error (.writeFailed _ _) => exact hkept.rest hP
    | .error (.startFailed _) => exact hkept.rest hP
  · exact hnoted.finish _

theorem proceed {cycle : HubCycle} (hcycle : K cycle.listeners) :
    (m.proceed id cycle).Steady P K := by
  unfold System.proceed
  split
  · exact (h.releaseCycle hP).conclude hP _
  · apply h.requestTransport
    intro cycle' heq
    cases heq
    exact hcycle

theorem abort {cycle : HubCycle} (hcycle : K cycle.listeners) (error : HubError) :
    (m.abort id cycle error).Steady P K := by
  have hcalled : ((m.note id .abandons).callEach id cycle.waiting).Steady P K :=
    (h.note .abandons).callEach hP hcycle fun _ => Cycle.mem_of_waiting
  exact ((hcalled.releaseTransport hP).releaseCycle hP).conclude hP _

theorem beginAttempt {cycle : HubCycle} (hcycle : K cycle.listeners) (a : Address)
    (revision : UInt64) (attempt : Nat) :
    (m.beginAttempt id cycle a revision attempt).Steady P K := by
  unfold System.beginAttempt
  split
  · exact h.abort hP hcycle _
  · have hlogged : m.hub.Quiet (m.hub.beginRead a) :=
      .of_gateway (m.hub.gateway.like_mapPump fun _ _ => rfl) rfl rfl rfl
    have hbegun : (m.mapHub (·.beginRead a)).Steady P K := h.quiet hP hlogged fun _ => rfl
    apply (hbegun.note _).setStage
    intro cycle' heq
    cases heq
    exact hcycle

theorem reserve : (m.reserve id).2.Steady P K :=
  h.quiet hP (.of_eq rfl rfl rfl rfl) fun _ => rfl

theorem begin (job : Job) : (m.begin id job).Steady P K := by
  cases job with
  | refresh => exact h.requestCycle
  | cycle => exact h.requestCycle
  | write a value =>
      unfold System.begin
      dsimp only
      split
      · exact h.finish _
      · exact h.requestTransport nofun
  | start =>
      have hstarted : m.hub.Quiet m.hub.start.2 :=
        .of_gateway m.hub.gateway.like_start rfl rfl rfl
      have hbegun : ({ m with hub := m.hub.start.2 } : System).Steady P K :=
        h.quiet hP hstarted fun _ => rfl
      exact hbegun.finish _
  | shutdown =>
      have hstopped : m.hub.Quiet m.hub.shutdown :=
        .of_gateway (m.hub.gateway.like_mapPump fun _ _ => rfl) rfl rfl rfl
      have hbegun : (m.mapHub Hub.shutdown).Steady P K := h.quiet hP hstopped fun _ => rfl
      exact hbegun.finish _
  | updates period =>
      unfold System.begin
      dsimp only
      split
      · exact h.finish _
      · exact (h.setTimers _ _).rest hP
  | drift period =>
      unfold System.begin
      dsimp only
      split
      · exact h.finish _
      · exact (h.setTimers _ _).setStage nofun

theorem update (period nextTick : Nat) : (m.update id period nextTick).Steady P K := by
  unfold System.update
  split
  · exact (h.leaveDoorbell hP).finish _
  · split
    · exact ((h.leaveDoorbell hP).setTimers _ _).requestCycle
    · exact (h.answerBell hP).requestCycle

theorem beginCycle : (m.beginCycle id).Steady P K := by
  unfold System.beginCycle
  split
  · exact (h.releaseCycle hP).conclude hP _
  · exact (h.note _).proceed hP (hP.registry h.hub)

-- An address is settled once its listeners have been called.
omit h in
theorem settleAddress {cycle : HubCycle} {stored : Option CachedValue} (hcasts : m.Casts K)
    (hcycle : K cycle.listeners) (hcalled : P (m.hub.callEach (cycle.settle stored).2))
    (a : Address) : (m.settleAddress id cycle a stored).Steady P K := by
  have hlisteners : K (cycle.settle stored).1.listeners := by
    rw [cycle.listeners_settle stored]
    exact hcycle
  have hsettled : ((m.note id (.settles a)).callEach id (cycle.settle stored).2).Steady P K :=
    ⟨hcalled, hcasts⟩
  exact (hsettled.releaseTransport hP).proceed hP hlisteners

theorem settleNothing {cycle : HubCycle} (hcycle : K cycle.listeners) (a : Address) :
    (m.settleAddress id cycle a none).Steady P K := by
  apply settleAddress hP h.casts hcycle
  exact hP.callEach h.hub fun l hmem => hP.safe hcycle l (Cycle.mem_of_completed hmem)

theorem readAnswered {cycle : HubCycle} (hcycle : K cycle.listeners) {a : Address} {revision : UInt64}
    (attempt : Nat) {result : FetchResult CoilValue}
    (hstored : ∀ value next offers stored, result = .ok value →
      Obtains m.hub.cache revision a (.ok value) next offers stored →
      P ({ m.hub with cache := next }.callEach (cycle.settle stored).2)) :
    (m.readAnswered id cycle a revision attempt result).Steady P K := by
  unfold System.readAnswered
  split
  · exact h.beginAttempt hP hcycle a revision _
  case h_2 value hconclude =>
    have hresult : result = .ok value := by
      unfold Retry.conclude? at hconclude
      split at hconclude
      · cases hconclude
        rfl
      · split at hconclude
        · cases hconclude
        · split at hconclude <;> cases hconclude
    unfold System.store
    cases hstore : m.hub.cache.store? revision a value with
    | none =>
        have hcalled := hstored value _ _ _ hresult (.refused hstore)
        have hcasts : (m.note id (.offers revision a value false)).Casts K := h.casts
        exact settleAddress hP hcasts hcycle hcalled a
    | some next =>
        have hcalled := hstored value _ _ _ hresult (.stored hstore)
        have hcasts : (({ m with hub.cache := next } : System).note id
          (.offers revision a value true)).Casts K := h.casts
        exact settleAddress hP hcasts hcycle hcalled a
  · exact h.settleNothing hP hcycle a
  · exact h.abort hP hcycle _
  · exact h.abort hP hcycle _
  · exact h.abort hP hcycle _

omit h in
theorem writeAnswered {a : Address} {revision : UInt64} {hadData : Bool}
    {result : FetchResult CoilValue} (hcasts : m.Casts K)
    (hrefused : ∀ e, result = .error e → P m.hub)
    (hstored : ∀ ack next offers stored, result = .ok ack →
      Obtains m.hub.cache revision a (.ok ack) next offers stored →
      P (if hadData then { m.hub with cache := next }.callEach (m.hub.registry.watching a)
        else { m.hub with cache := next })) :
    (m.writeAnswered id a revision hadData result).Steady P K := by
  cases result with
  | error e =>
      have hkept : m.Steady P K := ⟨hrefused e rfl, hcasts⟩
      exact (hkept.releaseTransport hP).finish _
  | ok ack =>
      -- whether the value was stored makes no difference to the rest
      have hrest : ∀ {m' : System}, m'.Casts K →
          P (if hadData then m'.hub.callEach (m'.hub.registry.watching a) else m'.hub) →
          (((if hadData then m'.callEach id (m'.hub.registry.watching a) else m')
            |>.releaseTransport).finish id (.ok (.acknowledged ack))).Steady P K := by
        intro m' hcasts' hcalled
        cases hadData with
        | true =>
            have htold : (m'.callEach id (m'.hub.registry.watching a)).Steady P K :=
              ⟨hcalled, hcasts'⟩
            exact (htold.releaseTransport hP).finish _
        | false =>
            have htold : m'.Steady P K := ⟨hcalled, hcasts'⟩
            exact (htold.releaseTransport hP).finish _
      unfold System.writeAnswered
      dsimp only
      unfold System.store
      cases hstore : m.hub.cache.store? revision a ack with
      | none =>
          have hnoted : (m.note id (.offers revision a ack false)).Casts K := hcasts
          exact hrest hnoted (hstored ack _ _ _ rfl (.refused hstore))
      | some next =>
          have hnoted : (({ m with hub.cache := next } : System).note id
            (.offers revision a ack true)).Casts K := hcasts
          exact hrest hnoted (hstored ack _ _ _ rfl (.stored hstore))

-- What a step does with the answer of the pump is the only thing that has to be looked at.
theorem step
    (hread : ∀ cycle revision attempt due a watchers rest value next offers stored,
      m.stage? id = some (.reading cycle revision attempt due) →
      cycle.pending = (a, watchers) :: rest → (m.hub.finishRead a).1 = .ok value →
      Obtains m.hub.cache revision a (.ok value) next offers stored →
      P ({ (m.hub.finishRead a).2 with cache := next }.callEach (cycle.settle stored).2))
    (hwrite : ∀ a value revision hadData ack next offers stored,
      m.stage? id = some (.writing a value revision hadData) →
      (m.hub.finishWrite a value).1 = .ok ack →
      Obtains m.hub.cache revision a (.ok ack) next offers stored →
      P (if hadData then
          { (m.hub.finishWrite a value).2 with cache := next }.callEach (m.hub.registry.watching a)
        else { (m.hub.finishWrite a value).2 with cache := next }))
    (hdrift : ∀ period, m.job? id = some (.drift period) →
      ∀ n, P (m.hub.mapPump (·.drift n))) : (m.step id).Steady P K := by
  unfold System.step
  cases ht : m.tasks[id]? with
  | none => exact h
  | some t =>
      have hjob : m.job? id = some t.job := by simp [job?, ht]
      have hstage : m.stage? id = some t.stage := by simp [stage?, ht]
      dsimp only
      split
      · exact h
      · cases hst : t.stage with
        | fresh => exact h.begin hP t.job
        | awaitingCycle => exact h.beginCycle hP
        | awaitingTransport cycle =>
            rw [hst] at hstage
            have hcycle := h.casts id _ cycle hstage rfl
            dsimp only
            split
            · exact h
            · exact (h.reserve hP).beginAttempt hP hcycle _ _ _
        | reading cycle revision attempt due =>
            rw [hst] at hstage
            have hcycle := h.casts id _ cycle hstage rfl
            dsimp only
            split
            · exact h
            case h_2 a watchers rest hp =>
              split
              · exact h.abort hP hcycle _
              · have hanswered : m.hub.Quiet (m.hub.finishRead a).2 :=
                  .of_gateway (m.hub.gateway.like_finishRead a) rfl rfl rfl
                have hheard : (({ m with hub := (m.hub.finishRead a).2 } : System).note id
                    (.hears a (m.hub.finishRead a).1)).Steady P K :=
                  h.quiet hP hanswered fun _ => rfl
                apply hheard.readAnswered hP hcycle
                intro value next offers stored hresult hobtains
                exact hread cycle revision attempt due a watchers rest value next offers stored
                  hstage hp hresult hobtains
        | awaitingWrite a value =>
            have hreserved : (m.reserve id).2.Steady P K := h.reserve hP
            have hsent : (m.reserve id).2.hub.Quiet ((m.reserve id).2.hub.beginWrite a value) :=
              .of_eq rfl rfl rfl rfl
            have hbegun : (((m.reserve id).2.mapHub (·.beginWrite a value)).note id
                (.sends a value)).Steady P K := hreserved.quiet hP hsent fun _ => rfl
            exact hbegun.setStage (by simp [Stage.cycle?])
        | writing a value revision hadData =>
            rw [hst] at hstage
            have hcasts : (({ m with hub := (m.hub.finishWrite a value).2 } : System).note id
              (.receives a (m.hub.finishWrite a value).1)).Casts K := h.casts
            apply writeAnswered hP hcasts
            · intro e hresult
              have hlike : m.hub.gateway.Like (m.hub.gateway.write a value).2 :=
                m.hub.gateway.like_write hresult
              exact hP.quiet h.hub (.of_gateway hlike rfl rfl rfl)
            · intro ack next offers stored hresult hobtains
              exact hwrite a value revision hadData ack next offers stored hstage hresult hobtains
        | idle =>
            cases hj : t.job with
            | updates period => exact h.update hP period t.nextTick
            | drift period =>
                have hdrifted : (m.mapHub (·.mapPump (·.drift (t.ticks + 1)))).Steady P K :=
                  h.mapHub (hdrift period (hj ▸ hjob) _)
                exact hdrifted.setTimers _ _
            | _ => exact h
        | finished outcome => exact h

theorem spawn (job : Job) : (m.spawn job).Steady P K := by
  refine ⟨hP.quiet h.hub (.of_eq rfl rfl rfl rfl), ?_⟩
  intro j stage cycle hst hcycle
  rw [stage?_spawn] at hst
  split at hst
  · cases hst
    cases hcycle
  · exact h.casts j stage cycle hst hcycle

-- Of the other moves, those are to be looked at that change the registry, the device or the displays.
theorem move (mv : Move) (hstep : ∀ id, mv = .step id → (m.step id).Steady P K)
    (hact : ∀ action, mv = .act action → Mild action)
    (hattach : ∀ coil, mv = .attach coil → P (Entity.attach m.hub coil).2)
    (hdetach : ∀ e, mv = .detach e → P (Entity.detach m.hub e))
    (hgateway : ∀ g, mv = .gateway g → P { m.hub with gateway := g }) : (m.move mv).Steady P K := by
  cases mv with
  | step id => exact hstep id rfl
  | spawn job => exact h.spawn hP job
  | stop id =>
      simp only [System.move]
      split
      · exact h.finish _
      · exact h
  | act action => exact h.mapHub (f := (·.act action)) (hP.act h.hub (hact action rfl))
  | attach coil => exact h.mapHub (f := fun hub => (Entity.attach hub coil).2) (hattach coil rfl)
  | detach e => exact h.mapHub (f := (Entity.detach · e)) (hdetach e rfl)
  | gateway g => exact h.mapHub (f := fun hub => { hub with gateway := g }) (hgateway g rfl)
  | nesting depth => exact h.quiet hP (.of_eq rfl rfl rfl rfl) fun _ => rfl
  | wait duration => exact ⟨h.hub, h.casts⟩
  | rouse woken => exact h.quiet hP (.of_eq rfl rfl rfl rfl) fun _ => rfl
  | forget => exact h.quiet hP (.of_eq rfl rfl rfl rfl) fun _ => rfl

end

end Steady

end System

end CoilHub
