import CoilHub.Proofs.Cache.Revisions
import CoilHub.Proofs.Interleaving.Steady

namespace CoilHub

-- Actions that leave the values of the device alone, and so do the scripts of the listeners that they
-- register.
inductive Action.LeavesDevice : Action → Prop
  | listen {name : String} {interest : List Address} {actions : List (Option Nat × Action)}
    (hactions : ∀ entry ∈ actions, entry.2.LeavesDevice) :
    LeavesDevice (.listen name interest actions)
  | unlisten (name : String) : LeavesDevice (.unlisten name)
  | failRead (a : Address) (e : FetchError) (times : Nat) : LeavesDevice (.failRead a e times)
  | failWrite (a : Address) (e : FetchError) (times : Nat) : LeavesDevice (.failWrite a e times)
  | cancel : LeavesDevice .cancel
  | requestRefresh : LeavesDevice .requestRefresh
  | notify : LeavesDevice .notify

def Effect.LeavesDevice : Effect → Prop
  | .display _ _ => True
  | .script _ actions => ∀ entry ∈ actions, entry.2.LeavesDevice

def LeaveDevice (ls : List HubListener) : Prop := ∀ l ∈ ls, l.reaction.effect.LeavesDevice

namespace Gateway

variable {g : Gateway} {a : Address} {value : CoilValue}

theorem value?_of_finishRead (hpump : g.pump?.isSome = true) (h : (g.finishRead a).1 = .ok value) :
    g.value? a = some value := by
  cases hsource : g.source with
  | echo => simp [pump?, hsource] at hpump
  | pump p =>
      have hread : (p.finishRead a).1 = .ok value := by simpa [finishRead, hsource] using h
      unfold Pump.finishRead at hread
      split at hread
      · cases hread
      · split at hread
        case h_1 found hfound =>
          cases hread
          simpa [value?, pump?, hsource] using hfound
        case h_2 => cases hread

-- A write that succeeds sets the value that it acknowledges, and no other one.
theorem value?_write (hpump : g.pump?.isSome = true) (hacks : g.acks = .empty) {ack : CoilValue}
    (h : (g.write a value).1 = .ok ack) :
    (g.write a value).2.pump?.isSome = true ∧ (g.write a value).2.acks = .empty ∧
      ∀ b, (g.write a value).2.value? b = if b = a then some ack else g.value? b := by
  cases hsource : g.source with
  | echo => simp [pump?, hsource] at hpump
  | pump p =>
      cases hw : p.write a value with
      | mk result q =>
          cases result with
          | error e => simp [write, hsource, hw] at h
          | ok written =>
              have hset : written = value ∧ (p.coil? a).isSome = true ∧ q = p.setValue a value := by
                unfold Pump.write at hw
                split at hw
                · cases hw
                · split at hw
                  · cases hw
                  case h_2 coil hcoil =>
                    split at hw <;> cases hw
                    exact ⟨rfl, by simp [hcoil], rfl⟩
              obtain ⟨rfl, hcoil, rfl⟩ := hset
              have hwritten : g.write a written =
                  (.ok written, { g with source := .pump (p.setValue a written) }) := by
                simp [write, hsource, hw, acknowledge, hacks]
              rw [hwritten] at h ⊢
              cases h
              refine ⟨rfl, hacks, fun b => ?_⟩
              simp only [value?, pump?, hsource, Option.bind_some, Pump.value?_setValue, hcoil,
                and_true]

end Gateway

namespace Hub

-- Whatever is cached is what the pump has, and no listener will change that.
structure Agrees (hub : Hub) : Prop where
  pump : hub.gateway.pump?.isSome = true
  acks : hub.gateway.acks = .empty
  cached : ∀ a value, hub.cache.get? a = some value → hub.gateway.value? a = some value
  listeners : LeaveDevice hub.registry.listeners

variable {hub : Hub}

theorem Agrees.quiet (h : hub.Agrees) {after : Hub} (hquiet : hub.Quiet after) : after.Agrees where
  pump := hquiet.gateway.pump.trans h.pump
  acks := hquiet.gateway.acks.trans h.acks
  cached := by
    intro a value hvalue
    rw [hquiet.gateway.value]
    apply h.cached a value
    unfold Cache.get? at hvalue ⊢
    rw [← hquiet.entries]
    exact hvalue
  listeners := by
    rw [hquiet.registry]
    exact h.listeners

-- The cache learns a value that the pump has.
theorem Agrees.learns (h : hub.Agrees) {gateway : Gateway} {next : Cache} {a : Address}
    {value : CoilValue} (hpump : gateway.pump?.isSome = true) (hacks : gateway.acks = .empty)
    (hvalue : ∀ b, gateway.value? b = if b = a then some value else hub.gateway.value? b)
    (hnext : ∀ b, next.get? b = if b = a then some value else hub.cache.get? b) :
    ({ hub with gateway, cache := next } : Hub).Agrees := by
  refine ⟨hpump, hacks, fun b found hfound => ?_, h.listeners⟩
  have hfound : next.get? b = some found := hfound
  show gateway.value? b = some found
  rw [hnext] at hfound
  rw [hvalue]
  by_cases heq : b = a
  · rw [if_pos heq] at hfound ⊢
    exact hfound
  · rw [if_neg heq] at hfound ⊢
    exact h.cached b found hfound

theorem agrees_lasting :
    Lasting Agrees LeaveDevice Effect.LeavesDevice Action.LeavesDevice where
  quiet := fun h hquiet => h.quiet hquiet
  registry := Agrees.listeners
  safe := id
  mild := id
  display := by
    intro hub index a h _
    unfold refreshDisplay
    split
    · exact h
    · exact ⟨h.pump, h.acks, h.cached, h.listeners⟩
  listen := by
    intro hub name interest actions h hmild
    refine ⟨h.pump, h.acks, h.cached, ?_⟩
    intro l hmem
    rcases Registry.mem_place hmem with rfl | hmem
    · cases hmild with
      | listen hactions => exact hactions
    · exact h.listeners l hmem
  unlisten := by
    intro hub name h
    exact ⟨h.pump, h.acks, h.cached, fun l hmem => h.listeners l (List.mem_filter.mp hmem).1⟩
  setValue := by
    intro hub a value h hmild
    cases hmild

end Hub

namespace System

variable {s : System} {id : TaskId}

-- Whatever may happen except that the device is exchanged or its values change of themselves.
def Move.LeavesDevice : Move → Prop
  | .act action => action.LeavesDevice
  | .spawn (.drift _) => False
  | .gateway _ => False
  | _ => True

-- Calls that can be numbered could be numbered before.
theorem count_before {t : System} (hlog : ∃ deeds, t.log = s.log ++ deeds)
    (hcount : (revisionsIn t.log).length < 2 ^ 64) : (revisionsIn s.log).length < 2 ^ 64 := by
  obtain ⟨deeds, hlog⟩ := hlog
  rw [hlog, revisionsIn_append, List.length_append] at hcount
  omega

theorem Reachable.numbered (hs : s.Reachable) :
    (revisionsIn s.log).length < 2 ^ 64 → s.Numbered := by
  apply hs.induction (P := fun s => (revisionsIn s.log).length < 2 ^ 64 → s.Numbered)
  · exact fun settings model gateway _ => numbered_fresh settings model gateway
  · intro s m hs ih hcount
    have hbefore := ih (count_before (log_move s m) hcount)
    rcases move_cases s m with ⟨id, -, ht⟩ | ⟨-, ha⟩
    · exact hbefore.turn hs.orderly ht hcount
    · exact hbefore.aside ha

-- In every run with fewer than 2^64 calls of the pump, a call that is under way has a higher revision
-- than everything that is cached.
theorem Reachable.newer (hs : s.Reachable) (hcount : (revisionsIn s.log).length < 2 ^ 64)
    {stage : Stage} {revision : UInt64} (hst : s.stage? id = some stage)
    (hr : stage.revision? = some revision) {a : Address} {e : CacheEntry}
    (he : s.hub.cache.entries.get? a = some e) : e.revision < revision := by
  have hn := hs.numbered hcount
  exact (hn.call id stage revision hst hr).2 _ (hn.entries a e he)

-- A value that was asked for under the latest revision is stored.
theorem Reachable.stored (hs : s.Reachable) (hcount : (revisionsIn s.log).length < 2 ^ 64)
    {stage : Stage} {revision : UInt64} (hst : s.stage? id = some stage)
    (hr : stage.revision? = some revision) {a : Address} {value : CoilValue} {next : Cache}
    {offers : List Deed} {stored : Option CachedValue}
    (hobtains : Obtains s.hub.cache revision a (.ok value) next offers stored) (b : Address) :
    next.get? b = if b = a then some value else s.hub.cache.get? b := by
  cases hobtains with
  | stored hstore => exact Cache.get?_of_store? hstore b
  | refused hstore =>
      rw [Cache.store?_of_newer value fun e he => hs.newer hcount hst hr he] at hstore
      cases hstore

-- Nobody makes temperatures drift.
def Still (s : System) : Prop := ∀ id period, s.job? id ≠ some (.drift period)

theorem Still.move (h : s.Still) {m : Move} (hm : m.LeavesDevice) : (s.move m).Still := by
  intro id period hjob
  cases m with
  | step j =>
      rcases (step_turn s j).turned with
        heq | ⟨stage, cycleLock, transport, cache, success, deeds, hturned⟩
      · rw [System.move, heq] at hjob
        exact h id period hjob
      · rw [System.move, hturned.jobs] at hjob
        exact h id period hjob
  | spawn job =>
      rw [System.move, job?_spawn] at hjob
      split at hjob
      · cases hjob
        exact hm
      · exact h id period hjob
  | stop j =>
      simp only [System.move] at hjob
      split at hjob
      case h_1 period hdrift => exact h j period hdrift
      case h_2 => exact h id period hjob
  | _ => exact h id period hjob

-- What such a run keeps up.
structure Agreed (s : System) : Prop where
  reachable : s.Reachable
  still : s.Still
  steady : s.Steady Hub.Agrees LeaveDevice

theorem Agreed.step (h : s.Agreed) (hcount : (revisionsIn s.log).length < 2 ^ 64) (id : TaskId) :
    (s.step id).Steady Hub.Agrees LeaveDevice := by
  have hagrees := h.steady.hub
  apply h.steady.step Hub.agrees_lasting
  · intro cycle revision attempt due a watchers rest value next offers stored hst hp hresult hobtains
    have hlike := s.hub.gateway.like_finishRead a
    have hread := Gateway.value?_of_finishRead hagrees.pump hresult
    have hnext := h.reachable.stored hcount hst rfl hobtains
    have hvalue : ∀ b, (s.hub.gateway.finishRead a).2.value? b =
        if b = a then some value else s.hub.gateway.value? b := by
      intro b
      rw [hlike.value]
      by_cases heq : b = a
      · rw [if_pos heq, heq, hread]
      · rw [if_neg heq]
    have hcached : ({ (s.hub.finishRead a).2 with cache := next } : Hub).Agrees :=
      hagrees.learns (hlike.pump.trans hagrees.pump) (hlike.acks.trans hagrees.acks) hvalue hnext
    have hcycle := h.steady.casts id _ cycle hst rfl
    exact Hub.agrees_lasting.callEach hcached fun l hmem => hcycle l (Cycle.mem_of_completed hmem)
  · intro a value revision hadData ack next offers stored hst hresult hobtains
    obtain ⟨hpump, hacks, hwritten⟩ := Gateway.value?_write hagrees.pump hagrees.acks hresult
    have hnext := h.reachable.stored hcount hst rfl hobtains
    have hcached : ({ (s.hub.finishWrite a value).2 with cache := next } : Hub).Agrees :=
      hagrees.learns hpump hacks hwritten hnext
    cases hadData with
    | false => exact hcached
    | true =>
        apply Hub.agrees_lasting.callEach hcached
        exact fun l hmem => hagrees.listeners l (List.mem_filter.mp hmem).1
  · exact fun period hjob => absurd hjob (h.still id period)

theorem Agreed.move (h : s.Agreed) (hcount : (revisionsIn s.log).length < 2 ^ 64) {m : Move}
    (hm : m.LeavesDevice) : (s.move m).Agreed := by
  have hagrees := h.steady.hub
  refine ⟨h.reachable.play [m], h.still.move hm, ?_⟩
  apply h.steady.move Hub.agrees_lasting m
  · rintro id rfl
    exact h.step hcount id
  · rintro action rfl
    exact hm
  · rintro coil rfl
    refine ⟨hagrees.pump, hagrees.acks, hagrees.cached, fun l hmem => ?_⟩
    rcases Registry.mem_place hmem with rfl | hmem
    · trivial
    · exact hagrees.listeners l hmem
  · rintro e rfl
    exact ⟨hagrees.pump, hagrees.acks, hagrees.cached,
      fun l hmem => hagrees.listeners l (List.mem_filter.mp hmem).1⟩
  · rintro g rfl
    exact hm.elim

theorem agreed_fresh (settings : HubConfig) (model : Model) (p : Pump) :
    (fresh settings model { source := .pump p }).Agreed where
  reachable := ⟨settings, model, _, [], rfl⟩
  still := nofun
  steady := by
    refine ⟨⟨rfl, rfl, nofun, nofun⟩, ?_⟩
    intro id stage cycle hst
    cases hst

theorem Agreed.play (h : s.Agreed) {moves : List Move} (hmoves : ∀ m ∈ moves, m.LeavesDevice)
    (hcount : (revisionsIn (s.play moves).log).length < 2 ^ 64) : (s.play moves).Agreed := by
  induction moves generalizing s with
  | nil => exact h
  | cons m rest ih =>
      have hbefore := count_before (log_play s (m :: rest)) hcount
      have hnext := h.move hbefore (hmoves m List.mem_cons_self)
      exact ih hnext (fun m hmem => hmoves m (List.mem_cons_of_mem _ hmem)) hcount

-- In every run with fewer than 2^64 calls of the pump, in which nobody but the hub changes a value of
-- the pump, every cached address is one of the pump's and has the pump's value, also while calls are
-- under way.
theorem cache_agrees (settings : HubConfig) (model : Model) (p : Pump) {moves : List Move}
    (hmoves : ∀ m ∈ moves, m.LeavesDevice)
    (hcount : (revisionsIn
      ((fresh settings model { source := .pump p }).play moves).log).length < 2 ^ 64) :
    ∃ q, ((fresh settings model { source := .pump p }).play moves).hub.gateway.source = .pump q ∧
      ∀ a, ((fresh settings model { source := .pump p }).play moves).hub.cache.contains a = true →
        (q.coil? a).isSome = true ∧
        ((fresh settings model { source := .pump p }).play moves).hub.cache.get? a = q.value? a := by
  have hagrees := ((agreed_fresh settings model p).play hmoves hcount).steady.hub
  generalize ((fresh settings model { source := .pump p }).play moves).hub = hub at hagrees ⊢
  cases hsource : hub.gateway.source with
  | echo =>
      have hpump := hagrees.pump
      simp [Gateway.pump?, hsource] at hpump
  | pump q =>
      refine ⟨q, rfl, fun a hcontains => ?_⟩
      rw [Cache.contains_eq] at hcontains
      obtain ⟨value, hvalue⟩ := Option.isSome_iff_exists.mp hcontains
      have hsame : q.value? a = some value := by
        simpa [Gateway.value?, Gateway.pump?, hsource] using hagrees.cached a value hvalue
      refine ⟨?_, by rw [hvalue, hsame]⟩
      unfold Pump.value? at hsame
      obtain ⟨entry, hentry, -⟩ := Option.map_eq_some_iff.mp hsame
      simp [Pump.coil?, hentry]

-- A refresh that needs a second attempt, a write in its midst, and another one that is refused.
def agreeing : List Move :=
  [.act (.listen "first" [1, 2] []), .act (.failRead 1 (.transient "a") 1),
    .act (.failWrite 1 (.fatal "b") 1), .spawn .refresh, .spawn (.write 2 (.integer 7)),
    .spawn (.write 1 (.integer 8)), .step 0, .step 0, .step 1, .step 2, .step 0, .wait 50, .step 0,
    .wait 50, .step 0, .step 1, .step 1, .step 2, .step 2, .step 0]

def twoCoils : Pump where
  model := .f1255
  coils := .insert 1 ({ address := 1, name := "", title := "", writable := true }, .integer 1)
    (.insert 2 ({ address := 2, name := "", title := "", writable := true }, .integer 2) .empty)
  readDelay := 50

theorem cache_agrees_agreeing :
    (∀ m ∈ agreeing, m.LeavesDevice) ∧
      (revisionsIn ((fresh {} .f1255 { source := .pump twoCoils }).play agreeing).log).length = 4 ∧
      ((fresh {} .f1255 { source := .pump twoCoils }).play agreeing).hub.cache.values =
        [(1, .integer 1), (2, .integer 7)] ∧
      ∃ q, ((fresh {} .f1255 { source := .pump twoCoils }).play agreeing).hub.gateway.source =
          .pump q ∧ q.value? 1 = some (.integer 1) ∧ q.value? 2 = some (.integer 7) := by
  have hmoves : ∀ m ∈ agreeing, m.LeavesDevice := by
    simp only [agreeing, List.forall_mem_cons, Move.LeavesDevice, true_and]
    exact ⟨.listen nofun, .failRead _ _ _, .failWrite _ _ _, nofun⟩
  have hcount : (revisionsIn
      ((fresh {} .f1255 { source := .pump twoCoils }).play agreeing).log).length = 4 := by decide
  refine ⟨hmoves, hcount, rfl, ?_⟩
  obtain ⟨q, hsource, hagree⟩ := cache_agrees {} .f1255 twoCoils hmoves (by rw [hcount]; decide)
  refine ⟨q, hsource, ?_, ?_⟩
  · rw [← (hagree 1 rfl).2]
    rfl
  · rw [← (hagree 2 rfl).2]
    rfl

end System

end CoilHub
