import CoilHub.Proofs.Interleaving.Solo
import CoilHub.Proofs.Refresh.Isolation
import Mathlib.Data.List.Nodup
import Mathlib.Data.List.Perm.Subperm

namespace CoilHub

-- A pump that answers reads at once and without a failure, with these values.
def Gateway.Answers (g : Gateway) (value : Address → Option CoilValue) : Prop :=
  ∃ p, g.source = .pump p ∧ p.readDelay = 0 ∧ (∀ a, Pump.takeFault p.readFaults a = none) ∧
    ∀ a, p.value? a = value a

-- A listener that is called and does nothing.
def Mute (l : HubListener) : Prop := ∃ counter, l.reaction.effect = .script counter []

section

variable {g : Gateway} {value : Address → Option CoilValue} {a : Address} {x : CoilValue}

namespace Gateway.Answers

variable (h : g.Answers value)
include h

theorem readDelay : g.readDelay = 0 := by
  obtain ⟨p, hp, hdelay, -, -⟩ := h
  rw [Gateway.readDelay, hp]
  exact hdelay

theorem beginRead (a : Address) : (g.beginRead a).Answers value := by
  obtain ⟨p, hp, hrest⟩ := h
  refine ⟨p.beginRead a, ?_, hrest⟩
  rw [Gateway.beginRead, mapPump, hp]

theorem finishRead (hx : value a = some x) : g.finishRead a = (.ok x, g) := by
  obtain ⟨p, hp, -, hfault, hvalue⟩ := h
  have hread : p.finishRead a = (.ok x, p) := by
    rw [Pump.finishRead, hfault]
    dsimp only
    rw [hvalue, hx]
  rw [Gateway.finishRead, hp]
  dsimp only
  rw [hread, ← hp]

end Gateway.Answers

end

namespace Hub

-- What neither a listener that does nothing nor a lock that is given up changes.
structure Untouched (before after : Hub) : Prop where
  gateway : after.gateway = before.gateway
  cache : after.cache = before.cache
  cancelled : after.cancelled = before.cancelled

theorem Untouched.trans {a b c : Hub} (hab : a.Untouched b) (hbc : b.Untouched c) : a.Untouched c :=
  ⟨hbc.gateway.trans hab.gateway, hbc.cache.trans hab.cache, hbc.cancelled.trans hab.cancelled⟩

theorem untouched_call (hub : Hub) {l : HubListener} (hl : Mute l) : hub.Untouched (hub.call l) := by
  obtain ⟨counter, hscript⟩ := hl
  unfold Hub.call callWithin
  rw [hscript]
  exact ⟨rfl, rfl, rfl⟩

theorem untouched_callEach (hub : Hub) {ls : List HubListener} (hls : ∀ l ∈ ls, Mute l) :
    hub.Untouched (hub.callEach ls) := by
  unfold callEach
  apply List.foldlRecOn (motive := hub.Untouched)
  · exact ⟨rfl, rfl, rfl⟩
  · exact fun later hlater l hl => hlater.trans (later.untouched_call (hls l hl))

end Hub

namespace System

variable {s m : System} {id : TaskId} {value : Address → Option CoilValue} {cycle : HubCycle} {a : Address}
  {x : CoilValue} {watchers : List Nat} {rest : List (Address × List Nat)} {revision : UInt64}

theorem untouched_wakeHolder (hub : Hub) (lock : Lock) : hub.Untouched (wakeHolder hub lock) := by
  unfold wakeHolder
  split <;> exact ⟨rfl, rfl, rfl⟩

theorem untouched_proceed (hjob : m.job? id = some .refresh) (cycle : HubCycle) :
    m.hub.Untouched (m.proceed id cycle).hub := by
  unfold proceed
  split
  · have hjob' : (m.releaseCycle.note id (.returns (.ok cycle.result))).job? id = some .refresh := hjob
    unfold conclude
    dsimp only
    rw [hjob']
    exact untouched_wakeHolder m.hub _
  · exact ⟨rfl, rfl, rfl⟩

-- Nothing is in the way of a task that refreshes.
structure Unhindered (id : TaskId) (value : Address → Option CoilValue) (listeners : List HubListener)
    (s : System) : Prop where
  job : s.job? id = some .refresh
  transport : s.transport = { holder := some id }
  cancelled : s.hub.cancelled = false
  gateway : s.hub.gateway.Answers value
  mute : ∀ l ∈ listeners, Mute l

-- The next address is asked for.
theorem Unhindered.ask (h : Unhindered id value cycle.listeners s)
    (hst : s.stage? id = some (.awaitingTransport cycle)) (hp : cycle.pending = (a, watchers) :: rest) :
    ∃ revision, (s.step id).stage? id = some (.reading cycle revision 1 (s.step id).now) ∧
      Unhindered id value cycle.listeners (s.step id) ∧
      (s.step id).hub.cache.entries = s.hub.cache.entries := by
  have hholder : s.transport.holder = some id := by rw [h.transport]
  have hstep : s.step id = s.beginRead id cycle a := by
    obtain ⟨t, ht, hstage⟩ := Option.map_eq_some_iff.mp hst
    simp [step, enabled, ht, hstage, hp, Lock.isHeldBy, hholder]
  have hbegun := (((Turned.start hst).reserve.mapHub (f := (·.beginRead a))
    (.of_eq rfl rfl rfl rfl rfl rfl rfl)).note (.asks a)).setStage
      (.reading cycle s.hub.cache.nextRevision.1 1 s.now)
  have hbegin : s.beginRead id cycle a = (((s.reserve id).2.mapHub (·.beginRead a)).note id (.asks a)).setStage
      id (.reading cycle s.hub.cache.nextRevision.1 1 s.now) := by
    have hcancelled : (s.reserve id).2.hub.cancelled = false := h.cancelled
    have hdelay : ((s.reserve id).2.mapHub (·.beginRead a)).hub.gateway.readDelay = 0 :=
      (h.gateway.beginRead a).readDelay
    have hnow : (s.reserve id).2.now + (s.reserve id).2.hub.gateway.readDelay = s.now := by
      show s.now + s.hub.gateway.readDelay = s.now
      rw [h.gateway.readDelay, Nat.add_zero]
    unfold beginRead
    dsimp only
    unfold beginAttempt
    rw [hcancelled, if_neg Bool.false_ne_true, hnow]
    rfl
  rw [hstep, hbegin]
  exact ⟨_, hbegun.stage, ⟨(hbegun.jobs id).trans h.job, h.transport, h.cancelled,
    h.gateway.beginRead a, h.mute⟩, rfl⟩

-- The cache after a value has been stored for an address that had none.
def cached (cache : Cache) (revision : UInt64) (a : Address) (x : CoilValue) : Cache :=
  { cache with entries := cache.entries.insert a { revision, address := a, value := x } }

theorem step_answered (h : Unhindered id value cycle.listeners s)
    (hst : s.stage? id = some (.reading cycle revision 1 s.now))
    (hp : cycle.pending = (a, watchers) :: rest) (hx : value a = some x)
    (hnew : s.hub.cache.entries.get? a = none) :
    s.step id = ((({ s with hub.cache := cached s.hub.cache revision a x }.note id (.hears a (.ok x))).note id
      (.offers revision a x true)).settleAddress id cycle a (some { address := a, value := x })) := by
  have hanswer : s.hub.finishRead a = (.ok x, s.hub) := by
    rw [Hub.finishRead, h.gateway.finishRead hx]
  have hstore : s.hub.cache.store? revision a x = some (cached s.hub.cache revision a x) := by
    rw [Cache.store?, hnew]
    rfl
  have hstep : s.step id =
      (s.note id (.hears a (.ok x))).readAnswered id cycle a revision 1 (.ok x) := by
    obtain ⟨t, ht, hstage⟩ := Option.map_eq_some_iff.mp hst
    simp [step, enabled, ht, hstage, hp, h.cancelled, hanswer]
  have hread : (s.note id (.hears a (.ok x))).hub.cache.store? revision a x =
      some (cached s.hub.cache revision a x) := hstore
  rw [hstep, readAnswered, Retry.conclude?]
  dsimp only
  rw [store, hread]
  rfl

-- The address is answered and settled. Then the next one is asked for, if there is one.
theorem Unhindered.settle (h : Unhindered id value cycle.listeners s)
    (hst : s.stage? id = some (.reading cycle revision 1 s.now))
    (hp : cycle.pending = (a, watchers) :: rest) (hx : value a = some x)
    (hnew : s.hub.cache.entries.get? a = none) :
    (s.step id).hub.cache = cached s.hub.cache revision a x ∧
      (rest = [] → ∃ values, (s.step id).stage? id = some (.finished (.ok (.refreshed values)))) ∧
      (rest ≠ [] → ∃ next : HubCycle, next.pending = rest ∧
        (s.step id).stage? id = some (.awaitingTransport next) ∧
        Unhindered id value next.listeners (s.step id)) := by
  let stored : Option CachedValue := some { address := a, value := x }
  let heard : System :=
    ({ s with hub.cache := cached s.hub.cache revision a x }.note id (.hears a (.ok x))).note id
      (.offers revision a x true)
  let told : System :=
    ((heard.note id (.settles a)).callEach id (cycle.settle stored).2).releaseTransport
  have hstep : s.step id = told.proceed id (cycle.settle stored).1 := step_answered h hst hp hx hnew
  have hturned := (((((Turned.start hst).setCache (cached s.hub.cache revision a x)).note
    (.hears a (.ok x))).note (.offers revision a x true)).note (.settles a)).callEach
      (cycle.settle stored).2
  have hreleased := hturned.releaseTransport
  have hpending : (cycle.settle stored).1.pending = rest := by simp [Cycle.settle, hp]
  have hmute : ∀ l ∈ (cycle.settle stored).2, Mute l := fun l hl => h.mute l (Cycle.mem_of_completed hl)
  have hhub : heard.hub.Untouched (s.step id).hub := by
    rw [hstep]
    have hcalled := heard.hub.untouched_callEach hmute
    have htold : heard.hub.Untouched told.hub := hcalled.trans (untouched_wakeHolder _ _)
    exact htold.trans (untouched_proceed ((hreleased.jobs id).trans h.job) _)
  refine ⟨hhub.cache, ?_, ?_⟩
  · intro hrest
    have hlast := hreleased.proceed_nil h.job (hpending.trans hrest)
    rw [hstep]
    exact ⟨_, hlast.stage⟩
  · intro hrest
    have hnext := hreleased.proceed_cons (hpending ▸ hrest)
    have hgateway : (s.step id).hub.gateway = s.hub.gateway := hhub.gateway
    refine ⟨_, hpending, hstep ▸ hnext.stage, ?_, ?_, hhub.cancelled.trans h.cancelled,
      hgateway ▸ h.gateway, ?_⟩
    · rw [hstep]
      exact (hnext.jobs id).trans h.job
    · rw [hstep, hnext.transport, h.transport]
      rfl
    · rw [Cycle.listeners_settle]
      exact h.mute

-- Two steps for each address. The induction is on the addresses that are left, none of which is cached.
theorem Unhindered.walk {left : List (Address × List Nat)} (hleft : left ≠ [])
    (h : Unhindered id value cycle.listeners s) (hst : s.stage? id = some (.awaitingTransport cycle))
    (hp : cycle.pending = left) (hnodup : (left.map Prod.fst).Nodup)
    (hvalue : ∀ a ∈ left.map Prod.fst, (value a).isSome)
    (hnew : ∀ a ∈ left.map Prod.fst, s.hub.cache.entries.get? a = none) :
    ∃ t values, Walks id (2 * left.length) s t ∧
      t.stage? id = some (.finished (.ok (.refreshed values))) ∧
      ∀ a, t.hub.cache.get? a = if a ∈ left.map Prod.fst then value a else s.hub.cache.get? a := by
  induction left generalizing s cycle with
  | nil => exact absurd rfl hleft
  | cons entry rest ih =>
      obtain ⟨a, watchers⟩ := entry
      rw [List.map_cons, List.nodup_cons] at hnodup
      obtain ⟨x, hx⟩ := Option.isSome_iff_exists.mp (hvalue a List.mem_cons_self)
      have hasks := enabled_of_awaitingTransport hst (congrArg Lock.holder h.transport)
      obtain ⟨revision, hreading, hasked, hentries⟩ := h.ask hst hp
      have hanswered := enabled_of_reading hreading (Nat.le_refl _)
      have hnone : (s.step id).hub.cache.entries.get? a = none :=
        hentries ▸ hnew a List.mem_cons_self
      obtain ⟨hcache, hlast, hnext⟩ := hasked.settle hreading hp hx hnone
      have htwo : Walks id 2 s ((s.step id).step id) := .walks hasks (.single hanswered)
      have hstored : ∀ b, ((s.step id).step id).hub.cache.get? b =
          if b = a then value a else s.hub.cache.get? b := by
        intro b
        rw [hcache, Cache.get?, cached, AddressMap.get?_insert, hentries, hx]
        split <;> rfl
      by_cases hrest : rest = []
      · obtain ⟨values, hend⟩ := hlast hrest
        subst hrest
        refine ⟨_, values, htwo, hend, fun b => ?_⟩
        rw [hstored b]
        by_cases hb : b = a <;> simp [hb]
      · obtain ⟨next, hpending, hawaits, hfree⟩ := hnext hrest
        have hlater : ∀ b ∈ rest.map Prod.fst, ((s.step id).step id).hub.cache.entries.get? b = none := by
          intro b hb
          have hne : b ≠ a := fun heq => hnodup.1 (heq ▸ hb)
          rw [hcache, cached, AddressMap.get?_insert, if_neg hne, hentries]
          exact hnew b (List.mem_cons_of_mem _ hb)
        obtain ⟨t, values, hwalk, hend, hcached⟩ := ih hrest hfree hawaits hpending hnodup.2
          (fun b hb => hvalue b (List.mem_cons_of_mem _ hb)) hlater
        refine ⟨t, values, ?_, hend, fun b => ?_⟩
        · rw [List.length_cons, Nat.mul_succ, Nat.add_comm]
          exact htwo.trans hwalk
        · rw [hcached b, hstored b, List.map_cons]
          by_cases hb : b = a
          · subst hb
            rw [if_neg hnodup.1, if_pos rfl, if_pos List.mem_cons_self]
          · have hmem : b ∈ rest.map Prod.fst ↔ b ∈ a :: rest.map Prod.fst := by simp [hb]
            rw [if_neg hb]
            exact if_congr hmem rfl rfl

theorem length_le_of_nodup {addresses : List Address} (h : addresses.Nodup) : addresses.length ≤ 65536 := by
  have hnumbers : (addresses.map UInt16.toNat).Nodup := h.map fun a b => UInt16.toNat_inj.mp
  have hsubset : addresses.map UInt16.toNat ⊆ List.range 65536 := by
    intro n hn
    obtain ⟨a, -, rfl⟩ := List.mem_map.mp hn
    exact List.mem_range.mpr a.toNat_lt
  have hlength := (hnumbers.subperm hsubset).length_le
  simpa using hlength

-- A refresh that nothing is in the way of succeeds, and caches what the pump has for each address that
-- somebody watches.
theorem run_refresh (hs : s.Rested) (hgateway : s.hub.gateway.Answers value)
    (hmute : ∀ l ∈ s.hub.registry.listeners, Mute l) (hempty : s.hub.cache.entries = .empty)
    (hvalue : ∀ l ∈ s.hub.registry.listeners, ∀ a ∈ l.interest, (value a).isSome) :
    ∃ values t, s.run .refresh = (some (.ok (.refreshed values)), t) ∧
      ∀ l ∈ s.hub.registry.listeners, ∀ a ∈ l.interest, t.hub.cache.get? a = value a := by
  let id := s.tasks.length
  let called := s.employ .refresh
  let listeners := s.hub.registry.listeners
  have hjob : called.job? id = some .refresh := job?_employ s .refresh
  have hst : called.stage? id = some .fresh := by rw [stage?_employ, if_pos rfl]
  have hqueued : called.step id = called.requestCycle id := step_fresh hjob hst
  have hqueue := (Turned.start hst).requestCycle
  have hawaits : (called.step id).stage? id = some .awaitingCycle := hqueued ▸ hqueue.stage
  have hlock : (called.step id).cycleLock.holder = some id := by
    rw [hqueued, hqueue.cycleLock]
    show (s.cycleLock.request id).holder = some id
    rw [hs.cycleLock]
    rfl
  have hbegins : (called.step id).step id =
      ((called.step id).note id (.begins listeners)).proceed id (Cycle.plan listeners) := by
    have hcancelled : (called.step id).hub.cancelled = false := by
      rw [hqueued]
      exact hs.cancelled
    have hregistry : (called.step id).hub.registry = s.hub.registry := by
      rw [hqueued]
      rfl
    rw [step_awaitingCycle hawaits hlock, beginCycle, hcancelled, if_neg Bool.false_ne_true, hregistry]
  have hbegun := (Turned.start hawaits).note (.begins listeners)
  have htwo : Walks id 2 called ((called.step id).step id) :=
    .walks (enabled_of_fresh hst) (.single (enabled_of_awaitingCycle hawaits hlock))
  have hwatched : ∀ a, a ∈ (Cycle.plan listeners).pending.map Prod.fst ↔
      ∃ l ∈ listeners, a ∈ l.interest := by
    intro a
    show a ∈ (InterestMap.build (listeners.map (·.interest))).addresses ↔ _
    rw [addresses_eq_watched, mem_watched]
  by_cases hp : (Cycle.plan listeners).pending = []
  · have hjob' := (congrArg (·.job? id) hqueued).trans ((hqueue.jobs id).trans hjob)
    have hlast := hbegun.proceed_nil hjob' hp
    refine ⟨_, _, run_of_walks hs htwo (by decide) (hbegins ▸ hlast.stage), ?_⟩
    intro l hl a ha
    have hmem := (hwatched a).mpr ⟨l, hl, ha⟩
    rw [hp] at hmem
    cases hmem
  · obtain ⟨entry, rest, hcons⟩ := List.exists_cons_of_ne_nil hp
    have hnext := hbegun.proceed_cons hp
    have hhub : ((called.step id).step id).hub = s.hub := by
      rw [hbegins, proceed, hcons, hqueued]
      rfl
    have hfree : Unhindered id value (Cycle.plan listeners).listeners ((called.step id).step id) := by
      refine ⟨job?_step (job?_step hjob id) id, ?_, hhub ▸ hs.cancelled, hhub ▸ hgateway, hmute⟩
      rw [hbegins, hnext.transport, hqueued, hqueue.transport]
      show s.transport.request id = _
      rw [hs.transport]
      rfl
    have hnodup : ((Cycle.plan listeners).pending.map Prod.fst).Nodup := InterestMap.nodup_addresses _
    obtain ⟨t, values, hwalk, hend, hcached⟩ := hfree.walk hp (hbegins ▸ hnext.stage) rfl hnodup
      (fun a ha => by
        obtain ⟨l, hl, hal⟩ := (hwatched a).mp ha
        exact hvalue l hl a hal)
      (fun a _ => by
        rw [hhub, hempty]
        rfl)
    have hsteps : 2 + 2 * (Cycle.plan listeners).pending.length < patience := by
      have hlength := length_le_of_nodup hnodup
      rw [List.length_map] at hlength
      show _ < 1000000
      omega
    refine ⟨values, _, run_of_walks hs (htwo.trans hwalk) hsteps hend, fun l hl a ha => ?_⟩
    have hlookup := hcached a
    rw [if_pos ((hwatched a).mpr ⟨l, hl, ha⟩)] at hlookup
    exact hlookup

end System

end CoilHub
