import CoilHub.Proofs.Cache.Growth
import CoilHub.Proofs.Entities.Broadcasts
import CoilHub.Proofs.Interleaving.Evolution
import CoilHub.Proofs.Refresh.Storings

namespace CoilHub

-- A value has been taken over that often.
structure Display.Moved (n : Nat) (before after : Display) : Prop where
  version : after.version = before.version + UInt32.ofNat n
  shown : after.value ≠ none ↔ before.value ≠ none ∨ n ≠ 0

namespace Display

theorem Moved.refl (d : Display) : d.Moved 0 d where
  version := (UInt32.add_zero _).symm
  shown := by simp

theorem Moved.trans {a b c : Display} {n k : Nat} (h : a.Moved n b) (h' : b.Moved k c) :
    a.Moved (n + k) c where
  version := by rw [h'.version, h.version, UInt32.ofNat_add, UInt32.add_assoc]
  shown := by
    rw [h'.shown, h.shown, or_assoc, ne_eq (n + k), Nat.add_eq_zero_iff, not_and_or]

theorem moved_takeOver (cached : Option CoilValue) (n : Nat) (d : Display) :
    d.Moved (if cached.isSome then n else 0) ((takeOver cached)^[n] d) := by
  cases cached with
  | none =>
      have hsame : (takeOver none)^[n] d = d := Function.iterate_fixed rfl n
      rw [hsame]
      exact .refl d
  | some value =>
      induction n with
      | zero => exact .refl d
      | succ n ih =>
          have hlast : ((takeOver (some value))^[n] d).Moved 1
              (takeOver (some value) ((takeOver (some value))^[n] d)) := ⟨rfl, by simp [takeOver]⟩
          rw [Function.iterate_succ_apply']
          exact ih.trans hlast

end Display

namespace Deed

-- How many broadcasts listeners made in the course of a deed while an address was cached.
def broadcasts (a : Address) : Deed → Nat
  | .calls hub ls => if hub.cache.contains a then hub.broadcastsOf ls else 0
  | _ => 0

-- Whether a write of an address was acknowledged.
def acknowledges (a : Address) : Deed → Bool
  | .receives b (.ok _) => decide (b = a)
  | _ => false

-- Whether a deed neither calls listeners nor acknowledges a write.
def isSilent : Deed → Bool
  | .calls _ _ | .receives _ (.ok _) => false
  | _ => true

theorem not_mem_of_silent {deeds : List Deed} (h : deeds.all isSilent = true) (hub : Hub)
    (ls : List HubListener) : .calls hub ls ∉ deeds := by
  intro hmem
  have hsilent := List.all_eq_true.mp h _ hmem
  cases hsilent

theorem countP_acknowledges {deeds : List Deed} (h : deeds.all isSilent = true) (a : Address) :
    deeds.countP (acknowledges a) = 0 := by
  rw [List.countP_eq_zero]
  intro deed hmem hack
  have hsilent := List.all_eq_true.mp h deed hmem
  cases deed with
  | receives b result =>
      cases result with
      | ok ack => cases hsilent
      | error fault => cases hack
  | _ => cases hack

end Deed

namespace Entity

variable {e : Entity}

-- How often it is an entity's turn in the course of a deed while its coil is cached.
def turnsAt (e : Entity) : Deed → Nat
  | .calls hub ls => if hub.cache.contains e.coil.address then e.turnsIn ls else 0
  | _ => 0

theorem sum_turnsAt {deeds : List Deed} (h : deeds.all Deed.isSilent = true) :
    (deeds.map e.turnsAt).sum = 0 := by
  rw [List.sum_eq_zero]
  intro n hmem
  obtain ⟨deed, hdeed, rfl⟩ := List.mem_map.mp hmem
  have hsilent := List.all_eq_true.mp h deed hdeed
  cases deed <;> first | rfl | cases hsilent

-- How often it takes over a value in the course of a deed.
def heardAt (e : Entity) (deed : Deed) : Nat := e.turnsAt deed + deed.broadcasts e.coil.address

theorem heardAt_of_not_call {deed : Deed} (h : deed.isCall = false) : e.heardAt deed = 0 := by
  cases deed <;> first | rfl | cases h

theorem moved_callEach {hub : Hub} (h : e.Present hub) {ls : List HubListener}
    (hls : ∀ l ∈ ls, e.Undisputed l) :
    (e.display hub).Moved (e.heardAt (.calls hub ls)) (e.display (hub.callEach ls)) := by
  have hmoved := Display.moved_takeOver (hub.cache.get? e.coil.address)
    (e.turnsIn ls + hub.broadcastsOf ls) (e.display hub)
  rw [← display_callEach h hls, ← Cache.contains_eq] at hmoved
  have hcount : (if hub.cache.contains e.coil.address then e.turnsIn ls + hub.broadcastsOf ls else 0) =
      e.heardAt (.calls hub ls) := by
    simp only [heardAt, turnsAt, Deed.broadcasts]
    split <;> rfl
  rwa [hcount] at hmoved

-- Nobody who is called by these deeds takes the part of the entity.
def Safe (e : Entity) (deeds : List Deed) : Prop :=
  ∀ hub ls, .calls hub ls ∈ deeds → e.Present hub → ∀ l ∈ ls, e.Undisputed l

-- What becomes of an entity in the course of some deeds.
structure Sits (e : Entity) (start : Hub) (deeds : List Deed) (hub : Hub) : Prop where
  present : e.Present hub
  called : ∀ m ls, .calls m ls ∈ deeds → e.Present m
  moved : (e.display start).Moved (deeds.map e.heardAt).sum (e.display hub)

-- The induction is on how the hub got there.
theorem sits_of_evolves {start hub : Hub} {deeds : List Deed} (h : start.Evolves deeds hub)
    (hstart : e.Present start) (hsafe : e.Safe deeds) : e.Sits start deeds hub := by
  induction h with
  | starts => exact ⟨hstart, by simp, .refl _⟩
  | drifts h hregistry hdisplays ih =>
      obtain ⟨hpresent, hcalled, hmoved⟩ := ih hsafe
      refine ⟨hpresent.of_eq hregistry hdisplays, hcalled, ?_⟩
      unfold display at hmoved ⊢
      rw [hdisplays]
      exact hmoved
  | @notes deeds m deed h hdeed ih =>
      obtain ⟨hpresent, hcalled, hmoved⟩ :=
        ih fun hub ls hmem => hsafe hub ls (List.mem_append_left _ hmem)
      refine ⟨hpresent, ?_, ?_⟩
      · intro hub ls hmem
        rcases List.mem_append.mp hmem with hmem | hmem
        · exact hcalled hub ls hmem
        · rw [← List.mem_singleton.mp hmem] at hdeed
          cases hdeed
      · simpa [heardAt_of_not_call hdeed] using hmoved
  | @calls deeds m h ls ih =>
      obtain ⟨hpresent, hcalled, hmoved⟩ :=
        ih fun hub ls hmem => hsafe hub ls (List.mem_append_left _ hmem)
      have hls : ∀ l ∈ ls, e.Undisputed l := hsafe m ls (by simp) hpresent
      refine ⟨?_, ?_, ?_⟩
      · exact e.present_lasting.callEach hpresent fun l hmem => (hls l hmem).tuned
      · intro hub ls' hmem
        rcases List.mem_append.mp hmem with hmem | hmem
        · exact hcalled hub ls' hmem
        · cases List.mem_singleton.mp hmem
          exact hpresent
      · simpa using hmoved.trans (moved_callEach hpresent hls)

-- Other entities have handles and displays of their own.
theorem Present.attach {hub : Hub} (h : e.Present hub) (coil : Coil) :
    e.Present (Entity.attach hub coil).2 := by
  have hne : hub.displays.length ≠ e.index := Nat.ne_of_gt h.seated
  have hlonger : e.Present { hub with displays := hub.displays ++ [{}] } :=
    ⟨by simpa using Nat.lt_succ_of_lt h.seated, h.enrolled, h.distinct⟩
  apply hlonger.register
  · intro heq
    injection heq with heq
    exact hne heq
  · intro a heq
    injection heq with heq
    exact hne heq

theorem Present.detach {hub : Hub} (h : e.Present hub) {other : Entity} (hne : other.index ≠ e.index) :
    e.Present (Entity.detach hub other) := by
  apply h.deregister
  intro heq
  injection heq with heq
  exact hne heq

-- An entity that has just been attached has a new handle and a new display.
theorem present_attach {hub : Hub} (hfurnished : hub.Furnished) (hseated : hub.Seated)
    (hdistinct : hub.registry.Distinct) (coil : Coil) :
    (attach hub coil).1.Present (attach hub coil).2 := by
  refine ⟨by simp [attach, Hub.register], ⟨attached_attach hub coil, ?_⟩,
    Registry.distinct_register hdistinct _⟩
  intro l hmem
  rcases Registry.mem_place hmem with rfl | hmem
  · exact .inl rfl
  · refine .inr ⟨fun heq => ?_, fun a heq => ?_⟩
    · exact absurd (hseated l hmem _ heq) (Nat.lt_irrefl _)
    · exact absurd (hfurnished l hmem _ a heq) (Nat.lt_irrefl _)

end Entity

namespace System

variable {s s' : System} {id : TaskId} {e : Entity}

-- A run in which an entity is on the registry, and on that of each refresh under way.
structure Hosts (s : System) (e : Entity) : Prop where
  reachable : s.Reachable
  steady : s.Steady e.Present e.Enrolled

theorem Hosts.step (h : s.Hosts e) (id : TaskId) : (s.step id).Steady e.Present e.Enrolled := by
  have hlasting := e.present_lasting
  have hpresent := h.steady.hub
  apply h.steady.step hlasting
  · intro cycle revision attempt due a watchers rest value next offers stored hst hp hresult hobtains
    have hcast := h.steady.casts id _ cycle hst rfl
    have hanswered : e.Present { (s.hub.finishRead a).2 with cache := next } := hpresent.of_eq rfl rfl
    exact hlasting.callEach hanswered fun l hmem => hlasting.safe hcast l (Cycle.mem_of_completed hmem)
  · intro a value revision hadData ack next offers stored hst hresult hobtains
    have hanswered : e.Present { (s.hub.finishWrite a value).2 with cache := next } :=
      hpresent.of_eq rfl rfl
    cases hadData with
    | false => exact hanswered
    | true =>
        refine hlasting.callEach hanswered fun l hmem => ?_
        exact hlasting.safe hpresent.enrolled l (List.mem_filter.mp hmem).1
  · exact fun _ _ _ => hpresent.of_eq rfl rfl

theorem Hosts.move (h : s.Hosts e) {m : Move} (hm : m.Keeps e) : (s.move m).Hosts e := by
  refine ⟨h.reachable.play [m], ?_⟩
  apply h.steady.move e.present_lasting m
  · rintro id rfl
    exact h.step id
  · exact fun _ _ => trivial
  · rintro coil rfl
    exact h.steady.hub.attach coil
  · rintro other rfl
    exact h.steady.hub.detach hm
  · rintro g rfl
    exact h.steady.hub.of_eq rfl rfl

end System

namespace Entity

variable (e : Entity)

theorem mem_listener (b : Address) : b ∈ e.listener.interest ↔ b = e.coil.address :=
  AddressSet.mem_ofList.trans List.mem_singleton

theorem contains_listener (b : Address) :
    e.listener.interest.contains b = decide (b = e.coil.address) := by
  rw [Bool.eq_iff_iff, AddressSet.contains_iff, decide_eq_true_iff, mem_listener]

theorem touches_listener (addresses : List Address) :
    e.listener.touches addresses = decide (e.coil.address ∈ addresses) := by
  rw [Bool.eq_iff_iff, Listener.touches_iff, decide_eq_true_iff]
  simp [mem_listener]

theorem missing_listener (addresses : List Address) :
    e.listener.missing addresses = 0 ↔ e.coil.address ∈ addresses := by
  rw [Listener.missing_eq_zero_iff]
  simp [mem_listener]

variable {e} in
-- All who watch an address are called when a write of it is acknowledged.
theorem Present.turnsIn_watching {hub : Hub} (h : e.Present hub) (b : Address) :
    e.turnsIn (hub.registry.watching b) = if b = e.coil.address then 1 else 0 := by
  unfold Registry.watching
  rw [turnsIn_filter h.enrolled.listed h.distinct, contains_listener]
  simp

variable {e} {ls : List HubListener} {deeds : List Deed} {cycle : HubCycle}
  (he : e.Enrolled ls) (hunique : System.Unique ls) (h : Accounts ls deeds cycle)
  (hsettled : ∀ a ∈ storedIn deeds, a ∈ settledIn deeds)
include he hunique h hsettled

-- An entity has no address to wait for once it has seen its own one refreshed.
theorem turnsIn_waiting : e.turnsIn cycle.waiting = 0 := by
  rw [h.tracks.waiting_eq, turnsIn_filter he.listed hunique, if_neg]
  intro hwaits
  rw [Bool.and_eq_true, touches_listener, decide_eq_true_iff, decide_eq_true_iff] at hwaits
  have hmissing := (e.missing_listener _).mpr (hsettled _ hwaits.1)
  omega

-- It is its turn when its own address is settled, if a value was stored.
theorem turnsIn_settle {b : Address} {watchers : List Nat} {rest : List (Address × List Nat)}
    (hp : cycle.pending = (b, watchers) :: rest) (stored : Option CachedValue) :
    e.turnsIn (cycle.settle stored).2 = if stored.isSome ∧ b = e.coil.address then 1 else 0 := by
  have hnew : b ∉ storedIn deeds := fun hmem => h.tracks.not_settled hp (hsettled b hmem)
  rw [h.tracks.completed_eq hp, turnsIn_filter he.listed hunique, contains_listener, touches_listener]
  by_cases hb : b = e.coil.address
  · subst hb
    have hmissing := (e.missing_listener (settledIn deeds ++ [e.coil.address])).mpr (by simp)
    cases stored <;> simp [hmissing, hnew]
  · simp [hb]

end Entity

namespace System

variable {s s' : System} {id : TaskId} {e : Entity} {stage : Stage} {cycle : HubCycle}

-- A refresh that is under way has the entity among its listeners, and keeps its books.
theorem Hosts.underway (h : s.Hosts e) (hst : s.stage? id = some stage)
    (hcycle : stage.cycle? = some cycle) :
    ∃ ls deeds, (s.diary id).current = some (ls, deeds) ∧ e.Enrolled ls ∧ Unique ls ∧
      Accounts ls deeds cycle ∧ ∀ a ∈ storedIn deeds, a ∈ settledIn deeds := by
  have hdiligent := h.reachable.documented.diligent id
  rw [hst] at hdiligent
  obtain ⟨ls, deeds, hcurrent, hunique, hgoing⟩ := hdiligent.current_eq_some hcycle
  have haccounts := hgoing.accounts hcycle
  refine ⟨ls, deeds, hcurrent, ?_, hunique, haccounts, fun a ha => hgoing.settled_of_stored ha⟩
  rw [← haccounts.tracks.listeners]
  exact h.steady.casts id stage cycle hst hcycle

theorem Hosts.outside (h : s.Hosts e) (hst : s.stage? id = some stage) (hcycle : stage.cycle? = none) :
    (s.diary id).current = none := by
  apply (h.reachable.documented.diligent id).current_eq_none
  rw [hst]
  exact hcycle

theorem successAfter_ok_cases (job : Job) (values : AddressMap CachedValue) (before : Bool) :
    successAfter job (.ok values) before = before ∨ successAfter job (.ok values) before = true := by
  cases job <;> first | exact .inl rfl | exact .inr rfl

-- What a turn of a task comes to for an entity: how often a refresh stores a value for its coil, and how
-- often it is the entity's turn.
structure Reckons (e : Entity) (s s' : System) (deeds : List Deed) (count : Nat) : Prop where
  log : s'.log = s.log ++ deeds
  safe : e.Safe deeds
  storings : s'.storings e.coil.address = s.storings e.coil.address + count
  turns : (∀ hub ls, .calls hub ls ∈ deeds → e.Present hub) →
    (deeds.map e.turnsAt).sum = count +
      (if s.hub.cache.isEmpty then 0 else deeds.countP (Deed.acknowledges e.coil.address)) +
      if s.hub.cache.contains e.coil.address && (s.hub.lastSuccess && !s'.hub.lastSuccess) then 1 else 0

section

variable {next : Stage} {cycleLock transport : Lock} {cache : Cache} {success : Bool}
  {deeds : List Deed} (h : s.Hosts e)
  (hturned : Turned id s next cycleLock transport cache success deeds s')
include h hturned

omit h in
theorem Turned.diary_self : s'.diary id = (s.diary id).write deeds := by
  unfold diary
  rw [hturned.deeds_self, Diary.write_append]

theorem storings_of_turned (hs' : s'.Reachable) (hst : s.stage? id = some stage) {a : Address}
    {count : Nat} (hdiary : ((s.diary id).write deeds).storings a = (s.diary id).storings a + count) :
    s'.storings a = s.storings a + count := by
  apply storings_turned h.reachable hs' hst
  · rw [hturned.diary_self, hdiary]
  · intro j hj
    unfold diary
    rw [hturned.deeds_other hj]

theorem reckons_silent (hs' : s'.Reachable) (hst : s.stage? id = some stage)
    (hsilent : deeds.all Deed.isSilent = true)
    (hsuccess : success = s.hub.lastSuccess ∨ success = true)
    (hdiary : ((s.diary id).write deeds).storings e.coil.address =
      (s.diary id).storings e.coil.address) : Reckons e s s' deeds 0 where
  log := hturned.log_eq
  safe := fun hub ls hmem => absurd hmem (Deed.not_mem_of_silent hsilent hub ls)
  storings := storings_of_turned h hturned hs' hst hdiary
  turns := by
    intro _
    have hkept : (s.hub.lastSuccess && !s'.hub.lastSuccess) = false := by
      rw [hturned.success_eq]
      rcases hsuccess with rfl | rfl <;> simp
    simp [Entity.sum_turnsAt hsilent, Deed.countP_acknowledges hsilent, hkept]

end

-- What follows on the end of a refresh: nothing, or a broadcast as the success flag falls.
def Aftermath (s : System) (a : Address) (success : Bool) (told : List Deed) : Prop :=
  told = [] ∧ (s.hub.lastSuccess && !success) = false ∨
    ∃ last : Hub, told = [.calls last last.registry.listeners] ∧
      last.cache.contains a = s.hub.cache.contains a ∧ (s.hub.lastSuccess && !success) = true

section

variable {a : Address} {watchers : List Nat} {rest : List (Address × List Nat)} {hub : Hub}
  {next : Stage} {cycleLock transport : Lock} {cache : Cache} {success : Bool}

-- A refresh is given up. It does not call the entity any more, but a broadcast may follow.
theorem reckons_abort (first : List Deed) {result : RefreshResult} {told : List Deed} (h : s.Hosts e)
    (hs' : s'.Reachable) (hst : s.stage? id = some stage) (hcycle : stage.cycle? = some cycle)
    (hsilent : first.all Deed.isSilent = true) (hidle : first.all Deed.isIdle = true)
    (htold : Aftermath s e.coil.address success told)
    (hturned : Turned id s next cycleLock transport cache success
      (first ++ .calls hub cycle.waiting :: .returns result :: told) s') :
    Reckons e s s' (first ++ .calls hub cycle.waiting :: .returns result :: told) 0 := by
  obtain ⟨ls, deeds, -, he, hunique, haccounts, hsettled⟩ := h.underway hst hcycle
  have hwaiting := Entity.turnsIn_waiting he hunique haccounts hsettled
  have hlisteners : ∀ l ∈ cycle.waiting, e.Undisputed l := by
    intro l hmem
    apply he.others
    rw [← haccounts.tracks.listeners]
    exact Cycle.mem_of_waiting hmem
  have hquiet := Deed.not_mem_of_silent hsilent
  have hcalls : ∀ hub' ls',
      .calls hub' ls' ∈ first ++ .calls hub cycle.waiting :: .returns result :: told →
        ls' = cycle.waiting ∨ ls' = hub'.registry.listeners := by
    intro hub' ls' hmem
    rcases htold with ⟨rfl, -⟩ | ⟨last, rfl, -⟩
    · exact .inl (by simpa [hquiet] using hmem : hub' = hub ∧ ls' = cycle.waiting).2
    · have hone : hub' = hub ∧ ls' = cycle.waiting ∨ hub' = last ∧ ls' = last.registry.listeners := by
        simpa [hquiet] using hmem
      rcases hone with ⟨-, rfl⟩ | ⟨rfl, rfl⟩
      · exact .inl rfl
      · exact .inr rfl
  refine ⟨hturned.log_eq, ?_, ?_, ?_⟩
  · intro hub' ls' hmem hpresent
    rcases hcalls hub' ls' hmem with rfl | rfl
    · exact hlisteners
    · exact hpresent.enrolled.others
  · apply storings_of_turned h hturned hs' hst
    apply Diary.storings_write
    rcases htold with ⟨rfl, -⟩ | ⟨last, rfl, -⟩ <;> simp [List.all_append, hidle, Deed.isIdle]
  · intro hpresent
    have hturns := Entity.sum_turnsAt (e := e) hsilent
    have hacks := Deed.countP_acknowledges hsilent e.coil.address
    rw [hturned.success_eq]
    rcases htold with ⟨rfl, hkept⟩ | ⟨last, rfl, hcache, hfalls⟩
    · simp [hturns, hacks, hkept, hwaiting, Entity.turnsAt, Deed.acknowledges]
    · have hlast := hpresent last last.registry.listeners (by simp)
      simp [hturns, hacks, hfalls, hwaiting, Entity.turnsAt, Deed.acknowledges,
        hlast.turnsIn_registry, hcache]

-- An address is settled, and those who are done with it are called.
theorem reckons_settle {revision : UInt64} {attempt due : Nat} {answer : FetchResult CoilValue}
    {offers : List Deed} {stored : Option CachedValue} {more : List Deed} (h : s.Hosts e) (hs' : s'.Reachable)
    (hst : s.stage? id = some (.reading cycle revision attempt due))
    (hp : cycle.pending = (a, watchers) :: rest)
    (hobtains : Obtains s.hub.cache revision a answer cache offers stored)
    (hhub : Hub.Kept { s.hub with cache } hub) (hsilent : more.all Deed.isSilent = true)
    (hidle : more.all Deed.isIdle = true) (hsuccess : success = s.hub.lastSuccess ∨ success = true)
    (hturned : Turned id s next cycleLock transport cache success
      (.hears a answer :: offers ++ .settles a :: .calls hub (cycle.settle stored).2 :: more) s') :
    Reckons e s s'
      (.hears a answer :: offers ++ .settles a :: .calls hub (cycle.settle stored).2 :: more)
      (if stored.isSome ∧ a = e.coil.address then 1 else 0) := by
  obtain ⟨ls, deeds, hcurrent, he, hunique, haccounts, hsettled⟩ := h.underway hst rfl
  have hturns := Entity.turnsIn_settle he hunique haccounts hsettled hp stored
  have hnew : a ∉ storedIn deeds := fun hmem => haccounts.tracks.not_settled hp (hsettled a hmem)
  have hcached : stored.isSome ∧ a = e.coil.address → hub.cache.contains e.coil.address = true := by
    rintro ⟨hstored, rfl⟩
    have hcontains := hobtains.contains_iff e.coil.address
    rw [hhub.cache]
    apply hcontains.mpr
    cases hobtains <;> simp_all [Except.toOption]
  have hoffers : (Deed.hears a answer :: offers).all Deed.isSilent = true := by
    cases hobtains <;> rfl
  have hquiet : ∀ hub' ls', .calls hub' ls' ∈ Deed.hears a answer :: offers ++ .settles a ::
      .calls hub (cycle.settle stored).2 :: more → ls' = (cycle.settle stored).2 := by
    intro hub' ls' hmem
    rcases List.mem_append.mp hmem with hmem | hmem
    · exact absurd hmem (Deed.not_mem_of_silent hoffers hub' ls')
    · have hsame : hub' = hub ∧ ls' = (cycle.settle stored).2 := by
        simpa [Deed.not_mem_of_silent hsilent] using hmem
      exact hsame.2
  refine ⟨hturned.log_eq, ?_, ?_, ?_⟩
  · intro hub' ls' hmem hpresent l hl
    rw [hquiet hub' ls' hmem] at hl
    apply he.others
    rw [← haccounts.tracks.listeners]
    exact Cycle.mem_of_completed hl
  · apply storings_of_turned h hturned hs' hst
    exact Diary.storings_answer hcurrent hnew hobtains hidle
  · intro _
    have hkept : (s.hub.lastSuccess && !s'.hub.lastSuccess) = false := by
      rw [hturned.success_eq]
      rcases hsuccess with rfl | rfl <;> simp
    have hturn : ((Deed.hears a answer :: offers ++ .settles a :: .calls hub (cycle.settle stored).2 ::
        more).map e.turnsAt).sum = e.turnsAt (.calls hub (cycle.settle stored).2) := by
      rw [List.map_append, List.sum_append, Entity.sum_turnsAt hoffers]
      simp [Entity.sum_turnsAt hsilent, Entity.turnsAt]
    have hnone : (Deed.hears a answer :: offers ++ .settles a ::
        Deed.calls hub (cycle.settle stored).2 :: more).countP (Deed.acknowledges e.coil.address) = 0 := by
      rw [List.countP_append, Deed.countP_acknowledges hoffers]
      simp [Deed.countP_acknowledges hsilent, Deed.acknowledges]
    rw [hturn, hnone, hkept]
    by_cases hcount : stored.isSome ∧ a = e.coil.address
    · simp [Entity.turnsAt, hturns, hcount, hcached hcount]
    · simp [Entity.turnsAt, hturns, hcount]

-- A write is acknowledged. Those who watch its address are called if anything was cached.
theorem reckons_acknowledged {value ack : CoilValue} {revision : UInt64} {hadData : Bool}
    {offers : List Deed} {stored : Option CachedValue} (h : s.Hosts e)
    (hs' : s'.Reachable) (hst : s.stage? id = some (.writing a value revision hadData))
    (hobtains : Obtains s.hub.cache revision a (.ok ack) cache offers stored)
    (hhub : Hub.Kept { s.hub with cache } hub)
    (hturned : Turned id s next cycleLock transport cache s.hub.lastSuccess
      (.receives a (.ok ack) :: offers ++
        if hadData then [.calls hub (hub.registry.watching a)] else []) s') :
    Reckons e s s' (.receives a (.ok ack) :: offers ++
      if hadData then [.calls hub (hub.registry.watching a)] else []) 0 := by
  have hinformed := h.reachable.informed id a value revision hadData hst
  have hoffers : offers.all Deed.isSilent = true := by cases hobtains <;> rfl
  have hplain : (Deed.receives a (.ok ack) :: offers ++
      if hadData then [Deed.calls hub (hub.registry.watching a)] else []).all Deed.isPlain = true := by
    cases hobtains <;> cases hadData <;> rfl
  have hcached : a = e.coil.address → hub.cache.contains e.coil.address = true := by
    rintro rfl
    rw [hhub.cache]
    exact (hobtains.contains_iff _).mpr (.inr (by simp [Except.toOption]))
  refine ⟨hturned.log_eq, ?_, ?_, ?_⟩
  · intro hub' ls' hmem hpresent l hl
    have hwatching : hub' = hub ∧ ls' = hub.registry.watching a := by
      cases hadData with
      | false => simp [Deed.not_mem_of_silent hoffers] at hmem
      | true => simpa [Deed.not_mem_of_silent hoffers] using hmem
    obtain ⟨rfl, rfl⟩ := hwatching
    exact hpresent.enrolled.others l (List.mem_filter.mp hl).1
  · apply storings_of_turned h hturned hs' hst
    rw [Diary.write_outside (h.outside hst rfl) hplain]
    rfl
  · intro hpresent
    have hkept : (s.hub.lastSuccess && !s'.hub.lastSuccess) = false := by
      rw [hturned.success_eq]
      simp
    have hquiet := Entity.sum_turnsAt (e := e) hoffers
    have hacks := Deed.countP_acknowledges hoffers e.coil.address
    rw [hkept]
    cases hadData with
    | false =>
        have hempty : s.hub.cache.isEmpty = true := by simpa using hinformed
        simp [hempty, hquiet, Entity.turnsAt]
    | true =>
        have hfull : s.hub.cache.isEmpty = false := by simpa using hinformed
        have hturns := (hpresent hub (hub.registry.watching a) (by simp)).turnsIn_watching a
        by_cases ha : a = e.coil.address
        · subst ha
          simp [hfull, hquiet, hacks, hturns, Entity.turnsAt, Deed.acknowledges, hcached rfl]
        · simp [hfull, hquiet, hacks, hturns, Entity.turnsAt, Deed.acknowledges, ha]

end

theorem reckons_stays (s : System) (e : Entity) : Reckons e s s [] 0 where
  log := (List.append_nil _).symm
  safe := by simp [Entity.Safe]
  storings := rfl
  turns := by simp

theorem Turn.reckons (ht : Turn id s s') (h : s.Hosts e) (hs' : s'.Reachable) :
    ∃ deeds count, Reckons e s s' deeds count := by
  have hidle : ∀ {deeds : List Deed}, deeds.all Deed.isIdle = true →
      ((s.diary id).write deeds).storings e.coil.address = (s.diary id).storings e.coil.address :=
    fun h => Diary.storings_write h
  have hbegins : s.stage? id = some .awaitingCycle → ∀ ls,
      ((s.diary id).next (.begins ls)).storings e.coil.address =
        (s.diary id).storings e.coil.address :=
    fun hst ls => Diary.storings_begins (h.outside hst rfl) ls
  have hunchanged : Aftermath s e.coil.address s.hub.lastSuccess [] := .inl ⟨rfl, by simp⟩
  cases ht with
  | stays hs _ =>
      subst hs
      exact ⟨[], 0, reckons_stays s' e⟩
  | queues hjob hr hst hfrom ht => exact ⟨_, _, reckons_silent h ht hs' hst rfl (.inl rfl) (hidle rfl)⟩
  | queuesWrite hjob hst hc ht => exact ⟨_, _, reckons_silent h ht hs' hst rfl (.inl rfl) (hidle rfl)⟩
  | declinesWrite hjob hst hc ht => exact ⟨_, _, reckons_silent h ht hs' hst rfl (.inl rfl) (hidle rfl)⟩
  | rests hjob hw hst hfrom ht => exact ⟨_, _, reckons_silent h ht hs' hst rfl (.inl rfl) (hidle rfl)⟩
  | ends hjob hother hst hfrom ht => exact ⟨_, _, reckons_silent h ht hs' hst rfl (.inl rfl) (hidle rfl)⟩
  | declines hjob hst hl hc ht => exact ⟨_, _, reckons_silent h ht hs' hst rfl (.inl rfl) (hidle rfl)⟩
  | beginsNothing hjob hst hl hc hp ht =>
      refine ⟨_, _, reckons_silent h ht hs' hst rfl (successAfter_ok_cases _ _ _) ?_⟩
      have hreturns : (Deed.returns (.ok .empty)).isIdle = true := rfl
      exact (Diary.storings_next hreturns).trans (hbegins hst _)
  | begins hst hl hc hp ht =>
      exact ⟨_, _, reckons_silent h ht hs' hst rfl (.inl rfl) (hbegins hst _)⟩
  | asks hst hp hl hc ht => exact ⟨_, _, reckons_silent h ht hs' hst rfl (.inl rfl) (hidle rfl)⟩
  | withdraws hjob hst hp hl hc hhub ht =>
      exact ⟨_, _, reckons_abort [.reserves _, .abandons] h hs' hst rfl rfl rfl hunchanged ht⟩
  | asksAgain hst hp hc hresult ht => exact ⟨_, _, reckons_silent h ht hs' hst rfl (.inl rfl) (hidle rfl)⟩
  | settles hst hp hrest hc hobtains hhub ht =>
      exact ⟨_, _, reckons_settle h hs' hst hp hobtains hhub rfl rfl (.inl rfl) ht⟩
  | settlesLast hjob hst hp hc hobtains hhub ht =>
      exact ⟨_, _, reckons_settle h hs' hst hp hobtains hhub rfl rfl (successAfter_ok_cases _ _ _) ht⟩
  | givesUp hjob hst hp hc hhub ht =>
      exact ⟨_, _, reckons_abort [.abandons] h hs' hst rfl rfl rfl hunchanged ht⟩
  | @fails job cycle a watchers rest revision attempt due fault hub last hjob hst hp hc hresult hfound
      hhub hlast ht =>
      refine ⟨_, _, reckons_abort [.hears a (.error fault), .abandons] h hs' hst rfl rfl rfl ?_ ht⟩
      have hresult : ∀ e : HubError, (.error (.refreshFailed a fault) : RefreshResult) = .error e →
          e = .cancelled ∨ ∃ a cause, e = .refreshFailed a cause := by
        rintro _ ⟨⟩
        exact .inr ⟨a, fault, rfl⟩
      have hcases := toldAfter_cases job last hresult
      rw [hlast.success] at hcases
      rcases hcases with ⟨htold, -, hsame⟩ | ⟨htold, -, -, -, hfalls⟩
      · exact .inl ⟨htold, hsame⟩
      · exact .inr ⟨_, htold, by rw [hlast.cache], hfalls⟩
  | sends hst hl ht => exact ⟨_, _, reckons_silent h ht hs' hst rfl (.inl rfl) (hidle rfl)⟩
  | refused hst ht => exact ⟨_, _, reckons_silent h ht hs' hst rfl (.inl rfl) (hidle rfl)⟩
  | acknowledged hst hobtains hhub ht =>
      exact ⟨_, _, reckons_acknowledged h hs' hst hobtains hhub ht⟩

end System

end CoilHub
