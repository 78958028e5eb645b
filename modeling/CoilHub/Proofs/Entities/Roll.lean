import CoilHub.Proofs.Entities.Availability
import CoilHub.Proofs.Interleaving.Steady
import Mathlib.Data.List.Nodup

namespace CoilHub

namespace Registry

variable {η κ : Type} [DecidableEq η] {l m : Listener η κ} {before after ls : List (Listener η κ)}

theorem place_of_new (h : l.handle ∉ ls.map (·.handle)) : place l ls = ls ++ [l] := by
  induction ls with
  | nil => rfl
  | cons first rest ih =>
      obtain ⟨hfirst, hrest⟩ := not_or.mp (List.mem_cons.not.mp h)
      rw [place, if_neg (Ne.symm hfirst), ih hrest, List.cons_append]

theorem place_of_known (hm : m.handle = l.handle) (hbefore : l.handle ∉ before.map (·.handle)) :
    place l (before ++ m :: after) = before ++ l :: after := by
  induction before with
  | nil => simp [place, hm]
  | cons first rest ih =>
      obtain ⟨hfirst, hrest⟩ := not_or.mp (List.mem_cons.not.mp hbefore)
      rw [List.cons_append, place, if_neg (Ne.symm hfirst), ih hrest, List.cons_append]

theorem deregister_unknown {r : Registry η κ} {handle : η} (h : handle ∉ r.listeners.map (·.handle)) :
    (r.deregister handle).listeners = r.listeners := by
  refine List.filter_eq_self.mpr fun l hl => decide_eq_true ?_
  rintro rfl
  exact h (List.mem_map_of_mem hl)

-- Handles are not shared, so exactly one listener goes.
theorem deregister_known {r : Registry η κ} (hr : r.Distinct) (h : r.listeners = before ++ m :: after) :
    (r.deregister m.handle).listeners = before ++ after := by
  have hothers : ∀ l ∈ before ++ after, decide (l.handle ≠ m.handle) = true := by
    intro l hl
    rw [Distinct, h, List.map_append, List.map_cons, List.nodup_middle, List.nodup_cons] at hr
    refine decide_eq_true fun heq => hr.1 ?_
    rw [← heq, ← List.map_append]
    exact List.mem_map_of_mem hl
  have hself : decide (m.handle ≠ m.handle) = false := by simp
  unfold deregister
  rw [h, List.filter_append, List.filter_cons, hself, if_neg Bool.false_ne_true, ← List.filter_append]
  exact List.filter_eq_self.mpr hothers

end Registry

namespace Entity

-- One more coil is set up.
def attachNext (sofar : List Entity × Hub) (coil : Coil) : List Entity × Hub :=
  (sofar.1 ++ [(attach sofar.2 coil).1], (attach sofar.2 coil).2)

theorem attachEach_eq (hub : Hub) (coils : List Coil) (includeDisabled : Bool) :
    attachEach hub coils includeDisabled =
      (coils.filter fun coil => includeDisabled || coil.description.enabledByDefault).foldl attachNext
        ([], hub) := rfl

theorem coils_attachEach (hub : Hub) (coils : List Coil) (includeDisabled : Bool) :
    (attachEach hub coils includeDisabled).1.map coil =
      coils.filter fun coil => includeDisabled || coil.description.enabledByDefault := by
  have hfold : ∀ (wanted : List Coil) (sofar : List Entity × Hub),
      (wanted.foldl attachNext sofar).1.map coil = sofar.1.map coil ++ wanted := by
    intro wanted
    induction wanted with
    | nil => intro sofar; simp
    | cons first rest ih =>
        intro sofar
        rw [List.foldl_cons, ih, attachNext, List.map_append, List.append_assoc]
        rfl
  rw [attachEach_eq, hfold]
  rfl

end Entity

-- Whom a listener serves: an entity that is alive, or somebody who registered it by hand.
inductive Owner
  | entity (e : Entity)
  | manual (name : String) (interest : List Address) (reaction : Reaction)

namespace Owner

def listener : Owner → HubListener
  | .entity e => e.listener
  | .manual name interest reaction =>
      { handle := .named name, interest := .ofList interest, reaction }

def handle (o : Owner) : Handle := o.listener.handle

-- An entity asks for the address of its coil, and for nothing else.
def interest : Owner → List Address
  | .entity e => [e.coil.address]
  | .manual _ interest _ => interest

def entity? : Owner → Option Entity
  | .entity e => some e
  | .manual _ _ _ => none

theorem interest_listener (o : Owner) : o.listener.interest = .ofList o.interest := by
  cases o <;> rfl

theorem handles_map_listener (owners : List Owner) :
    (owners.map listener).map (·.handle) = owners.map handle := by
  rw [List.map_map]
  rfl

end Owner

namespace Hub

-- The addresses that a cycle would fetch if it began now.
def fetchList (hub : Hub) : List Address := (Cycle.plan hub.registry.listeners).pending.map Prod.fst

theorem nodup_fetchList (hub : Hub) : hub.fetchList.Nodup := InterestMap.nodup_addresses _

theorem mem_fetchList {hub : Hub} {a : Address} :
    a ∈ hub.fetchList ↔ ∃ l ∈ hub.registry.listeners, a ∈ l.interest := by
  have h : a ∈ (InterestMap.build (hub.registry.listeners.map (·.interest))).addresses ↔ _ :=
    InterestMap.mem_addresses
  simpa [fetchList, InterestMap.addresses, Cycle.plan] using h

-- A hub with the owners of its listeners, the earliest first, after any sequence of the things that change
-- them. Between two of these anything may happen that leaves the registry and the number of displays alone.
inductive Roll : Hub → List Owner → Prop
  | opens {settings model gateway} : Roll { settings, model, gateway } []
  | attach {hub owners} (coil : Coil) : Roll hub owners →
      Roll (Entity.attach hub coil).2 (owners ++ [.entity (Entity.attach hub coil).1])
  | setup {hub owners} (coils : List Coil) (includeDisabled : Bool) : Roll hub owners →
      Roll (Entity.attachEach hub coils includeDisabled).2
        (owners ++ (Entity.attachEach hub coils includeDisabled).1.map .entity)
  | drop {hub before e rest} : Roll hub (before ++ .entity e :: rest) →
      Roll (Entity.detach hub e) (before ++ rest)
  | register {hub owners name} (interest : List Address) (actions : List (Option Nat × Action)) :
      Roll hub owners → .named name ∉ owners.map Owner.handle →
      Roll (hub.listen name interest actions)
        (owners ++ [.manual name interest ⟨interest, .script hub.counters.length actions⟩])
  | renew {hub before name old reaction rest} (interest : List Address)
      (actions : List (Option Nat × Action)) : Roll hub (before ++ .manual name old reaction :: rest) →
      Roll (hub.listen name interest actions)
        (before ++ .manual name interest ⟨interest, .script hub.counters.length actions⟩ :: rest)
  | deregister {hub before name old reaction rest} :
      Roll hub (before ++ .manual name old reaction :: rest) →
      Roll (hub.deregister (.named name)) (before ++ rest)
  | deregisterUnknown {hub owners name} : Roll hub owners → .named name ∉ owners.map Owner.handle →
      Roll (hub.deregister (.named name)) owners
  | meanwhile {hub owners after} : Roll hub owners → after.registry = hub.registry →
      after.displays.length = hub.displays.length → Roll after owners

variable {hub after : Hub} {owners before rest : List Owner}

-- The registry is the list of the owners' listeners, nobody's handle is anybody else's, and the next entity
-- will get a new one.
structure Enlists (hub : Hub) (owners : List Owner) : Prop where
  listeners : hub.registry.listeners = owners.map Owner.listener
  distinct : (owners.map Owner.handle).Nodup
  seated : ∀ e, .entity e ∈ owners → e.index < hub.displays.length

namespace Enlists

theorem registry_distinct (h : hub.Enlists owners) : hub.registry.Distinct := by
  rw [Registry.Distinct, h.listeners, Owner.handles_map_listener]
  exact h.distinct

theorem of_registry (h : hub.Enlists owners) (hregistry : after.registry = hub.registry)
    (hdisplays : after.displays.length = hub.displays.length) : after.Enlists owners where
  listeners := hregistry ▸ h.listeners
  distinct := h.distinct
  seated := hdisplays ▸ h.seated

-- Somebody new comes last.
theorem append {o : Owner} (h : hub.Enlists owners) (hnew : o.handle ∉ owners.map Owner.handle)
    (hregistry : after.registry = hub.registry.register o.listener)
    (hdisplays : hub.displays.length ≤ after.displays.length)
    (hseated : ∀ e, o = .entity e → e.index < after.displays.length) :
    after.Enlists (owners ++ [o]) where
  listeners := by
    have hhandle : o.listener.handle ∉ hub.registry.listeners.map (·.handle) := by
      rw [h.listeners, Owner.handles_map_listener]
      exact hnew
    rw [hregistry, Registry.register, Registry.place_of_new hhandle, h.listeners, List.map_append]
    rfl
  distinct := by
    rw [List.map_append, List.nodup_append]
    refine ⟨h.distinct, List.nodup_singleton _, ?_⟩
    intro handle hmem other hother
    rw [List.mem_singleton.mp hother]
    rintro rfl
    exact hnew hmem
  seated := by
    intro e hmem
    rcases List.mem_append.mp hmem with hmem | hmem
    · exact Nat.lt_of_lt_of_le (h.seated e hmem) hdisplays
    · exact hseated e (List.mem_singleton.mp hmem).symm

theorem attach (h : hub.Enlists owners) (coil : Coil) :
    (Entity.attach hub coil).2.Enlists (owners ++ [.entity (Entity.attach hub coil).1]) := by
  have hlength : (Entity.attach hub coil).2.displays.length = hub.displays.length + 1 := by
    simp [Entity.attach, Hub.register]
  refine h.append ?_ rfl (hlength ▸ Nat.le_succ _) ?_
  · intro hmem
    obtain ⟨o, ho, hhandle⟩ := List.mem_map.mp hmem
    cases o with
    | entity e =>
        have hindex : e.index = hub.displays.length := Handle.entity.inj hhandle
        exact absurd (h.seated e ho) (hindex ▸ Nat.lt_irrefl _)
    | manual name interest reaction => cases hhandle
  · rintro e heq
    cases heq
    exact hlength ▸ Nat.lt_succ_self _

-- What is kept while coils are set up speaks of the entities that are there so far.
theorem attachEach (h : hub.Enlists owners) (coils : List Coil) (includeDisabled : Bool) :
    (Entity.attachEach hub coils includeDisabled).2.Enlists
      (owners ++ (Entity.attachEach hub coils includeDisabled).1.map .entity) := by
  rw [Entity.attachEach_eq]
  apply List.foldlRecOn (motive := fun p : List Entity × Hub =>
    p.2.Enlists (owners ++ p.1.map Owner.entity))
  · simpa using h
  · rintro ⟨entities, hub⟩ hsofar coil -
    have hmore := hsofar.attach coil
    rw [List.append_assoc] at hmore
    rw [Entity.attachNext, List.map_append]
    exact hmore

theorem remove {o : Owner} (h : hub.Enlists (before ++ o :: rest))
    (hregistry : after.registry = hub.registry.deregister o.handle)
    (hdisplays : after.displays.length = hub.displays.length) : after.Enlists (before ++ rest) where
  listeners := by
    have hsplit := h.listeners
    rw [List.map_append, List.map_cons] at hsplit
    rw [hregistry, Owner.handle, Registry.deregister_known h.registry_distinct hsplit, List.map_append]
  distinct := h.distinct.sublist (((List.sublist_cons_self o rest).append_left before).map _)
  seated := by
    intro e hmem
    rw [hdisplays]
    exact h.seated e (by grind)

-- A name that is registered again keeps its place.
theorem replace {o p : Owner} (h : hub.Enlists (before ++ o :: rest)) (hhandle : p.handle = o.handle)
    (hregistry : after.registry = hub.registry.register p.listener)
    (hdisplays : after.displays.length = hub.displays.length)
    (hnamed : ∀ e, p ≠ .entity e) : after.Enlists (before ++ p :: rest) where
  listeners := by
    have hdistinct := h.distinct
    rw [List.map_append, List.map_cons, List.nodup_middle, List.nodup_cons] at hdistinct
    have hbefore : p.listener.handle ∉ (before.map Owner.listener).map (·.handle) := by
      rw [Owner.handles_map_listener]
      intro hmem
      exact hdistinct.1 (List.mem_append_left _ (hhandle ▸ hmem))
    have hsplit := h.listeners
    rw [List.map_append, List.map_cons] at hsplit
    rw [hregistry, Registry.register, hsplit, Registry.place_of_known hhandle.symm hbefore, List.map_append,
      List.map_cons]
  distinct := by
    rw [List.map_append, List.map_cons, hhandle, ← List.map_cons, ← List.map_append]
    exact h.distinct
  seated := by
    intro e hmem
    rw [hdisplays]
    have hne := hnamed e
    exact h.seated e (by grind)

end Enlists

theorem Roll.enlists (h : Roll hub owners) : hub.Enlists owners := by
  induction h with
  | opens => exact ⟨rfl, List.nodup_nil, nofun⟩
  | attach coil _ ih => exact ih.attach coil
  | setup coils includeDisabled _ ih => exact ih.attachEach coils includeDisabled
  | drop _ ih => exact ih.remove rfl rfl
  | register _ _ _ hnew ih => exact ih.append hnew rfl (Nat.le_refl _) nofun
  | renew _ _ _ ih => exact ih.replace rfl rfl rfl nofun
  | deregister _ ih => exact ih.remove rfl rfl
  | deregisterUnknown _ hunknown ih =>
      refine ⟨?_, ih.distinct, ih.seated⟩
      rw [← ih.listeners]
      apply Registry.deregister_unknown
      rw [ih.listeners, Owner.handles_map_listener]
      exact hunknown
  | meanwhile _ hregistry hdisplays ih => exact ih.of_registry hregistry hdisplays

-- Some roll of the hub has these entities, in this order.
def Peopled (living : List Entity) (hub : Hub) : Prop :=
  ∃ owners, Roll hub owners ∧ owners.filterMap Owner.entity? = living

theorem Peopled.of_registry {living : List Entity} (h : hub.Peopled living)
    (hregistry : after.registry = hub.registry)
    (hdisplays : after.displays.length = hub.displays.length) : after.Peopled living := by
  obtain ⟨owners, hroll, hliving⟩ := h
  exact ⟨owners, hroll.meanwhile hregistry hdisplays, hliving⟩

theorem exists_manual_of_handle {name : String} (h : .named name ∈ owners.map Owner.handle) :
    ∃ before interest reaction rest, owners = before ++ .manual name interest reaction :: rest := by
  obtain ⟨o, ho, hhandle⟩ := List.mem_map.mp h
  obtain ⟨before, rest, rfl⟩ := List.append_of_mem ho
  cases o with
  | entity e => cases hhandle
  | manual other interest reaction =>
      cases hhandle
      exact ⟨before, interest, reaction, rest, rfl⟩

-- Listeners that register others, and give names up, do it as anybody would.
theorem peopled_lasting (living : List Entity) :
    Lasting (Peopled living) (fun _ => True) (fun _ => True) fun _ => True where
  quiet := fun h hquiet => h.of_registry hquiet.registry (congrArg List.length hquiet.displays)
  registry := fun _ => trivial
  safe := fun _ _ _ => trivial
  mild := fun _ _ _ => trivial
  display := by
    intro hub index a h _
    unfold refreshDisplay
    split
    · exact h
    · exact h.of_registry rfl (List.length_modify ..)
  listen := by
    rintro hub name interest actions ⟨owners, hroll, rfl⟩ -
    by_cases hname : .named name ∈ owners.map Owner.handle
    · obtain ⟨before, old, reaction, rest, rfl⟩ := exists_manual_of_handle hname
      exact ⟨_, hroll.renew interest actions, by simp [List.filterMap_cons, Owner.entity?]⟩
    · exact ⟨_, hroll.register interest actions hname, by simp [Owner.entity?]⟩
  unlisten := by
    rintro hub name ⟨owners, hroll, rfl⟩
    by_cases hname : .named name ∈ owners.map Owner.handle
    · obtain ⟨before, old, reaction, rest, rfl⟩ := exists_manual_of_handle hname
      exact ⟨_, hroll.deregister, by simp [List.filterMap_cons, Owner.entity?]⟩
    · exact ⟨_, hroll.deregisterUnknown hname, rfl⟩
  setValue := fun h _ => h.of_registry rfl rfl

-- No step of a task brings an entity or takes one away, whatever its listeners do.
theorem Peopled.step {s : System} {living : List Entity} (h : s.hub.Peopled living) (id : TaskId) :
    (s.step id).hub.Peopled living := by
  have hlasting := peopled_lasting living
  have hsteady : s.Steady (Peopled living) fun _ => True := ⟨h, fun _ _ _ _ _ => trivial⟩
  have hstep : (s.step id).Steady (Peopled living) fun _ => True := by
    apply hsteady.step hlasting
    · intro cycle revision attempt due a watchers rest value next offers stored _ _ _ _
      have hanswered : Peopled living { (s.hub.finishRead a).2 with cache := next } :=
        h.of_registry rfl rfl
      exact hlasting.callEach hanswered fun _ _ => trivial
    · intro a value revision hadData ack next offers stored _ _ _
      have hanswered : Peopled living { (s.hub.finishWrite a value).2 with cache := next } :=
        h.of_registry rfl rfl
      split
      · exact hlasting.callEach hanswered fun _ _ => trivial
      · exact hanswered
    · intro period _ n
      exact h.of_registry rfl rfl
  exact hstep.hub

-- An entity that is not alive has no listener left to lose.
theorem Roll.exists_detach (h : Roll hub owners) (e : Entity) :
    ∃ left, Roll (Entity.detach hub e) left := by
  by_cases hmem : e.handle ∈ owners.map Owner.handle
  · obtain ⟨o, ho, hhandle⟩ := List.mem_map.mp hmem
    obtain ⟨before, rest, rfl⟩ := List.append_of_mem ho
    cases o with
    | entity alive =>
        have hsame : Entity.detach hub alive = Entity.detach hub e := congrArg hub.deregister hhandle
        exact ⟨before ++ rest, hsame ▸ h.drop⟩
    | manual name interest reaction => cases hhandle
  · have hunknown : e.handle ∉ hub.registry.listeners.map (·.handle) := by
      rw [h.enlists.listeners, Owner.handles_map_listener]
      exact hmem
    exact ⟨owners, h.meanwhile (congrArg Registry.mk (Registry.deregister_unknown hunknown)) rfl⟩

-- A roll goes on through every move. The listeners may register and give up what they like, but only an
-- attachment brings an entity.
theorem Roll.exists_move {s : System} (h : Roll s.hub owners) (m : System.Move) :
    ∃ after, Roll (s.move m).hub after := by
  have hpeopled : s.hub.Peopled (owners.filterMap Owner.entity?) := ⟨owners, h, rfl⟩
  have hcasts : ∀ t : System, t.Casts fun _ => True := fun _ _ _ _ _ _ => trivial
  have hothers : (∀ coil, m ≠ .attach coil) → (∀ e, m ≠ .detach e) → (∀ g, m ≠ .gateway g) →
      (s.move m).hub.Peopled (owners.filterMap Owner.entity?) := by
    intro hattach hdetach hgateway
    exact (System.Steady.move (peopled_lasting _) ⟨hpeopled, hcasts s⟩ m
      (fun id _ => ⟨hpeopled.step id, hcasts _⟩) (fun _ _ => trivial)
      (fun coil heq => absurd heq (hattach coil)) (fun e heq => absurd heq (hdetach e))
      fun g heq => absurd heq (hgateway g)).hub
  cases m with
  | attach coil => exact ⟨_, h.attach coil⟩
  | detach e => exact h.exists_detach e
  | gateway g => exact ⟨owners, h.meanwhile rfl rfl⟩
  | _ =>
      obtain ⟨after, hroll, -⟩ := hothers nofun nofun nofun
      exact ⟨after, hroll⟩

-- What is known of a hub by its roll.
structure Serves (hub : Hub) (owners : List Owner) : Prop where
  listeners : hub.registry.listeners = owners.map Owner.listener
  size : hub.registry.size = owners.length
  distinct : (hub.registry.listeners.map (·.handle)).Nodup
  fetched : ∀ a, a ∈ hub.fetchList ↔ ∃ o ∈ owners, a ∈ o.interest
  once : hub.fetchList.Nodup

theorem Enlists.serves (h : hub.Enlists owners) : hub.Serves owners where
  listeners := h.listeners
  size := by rw [Registry.size, h.listeners, List.length_map]
  distinct := h.registry_distinct
  fetched := by
    intro a
    have hmem : ∀ o : Owner, a ∈ o.listener.interest ↔ a ∈ o.interest := by
      intro o
      rw [o.interest_listener, AddressSet.mem_ofList]
    simp [mem_fetchList, h.listeners, hmem]
  once := hub.nodup_fetchList

-- Whatever has happened to a system, there is a roll of those whom its registry serves.
theorem served_of_reachable {s : System} (hs : s.Reachable) :
    ∃ owners, Roll s.hub owners ∧ s.hub.Serves owners := by
  have henrolled : ∃ owners, Roll s.hub owners := by
    refine System.Reachable.induction (P := fun s => ∃ owners, Roll s.hub owners) ?_ ?_ hs
    · exact fun settings model gateway => ⟨[], .opens⟩
    · rintro s m - ⟨owners, h⟩
      exact h.exists_move m
  obtain ⟨owners, h⟩ := henrolled
  exact ⟨owners, h, h.enlists.serves⟩

-- The registry serves those who are on the roll, each by one listener and in the order of the roll. If an
-- entity is dropped then it serves the others, and if coils are set up then their entities as well.
theorem roll_call (h : Roll hub owners) :
    hub.Serves owners ∧
      (∀ before e rest, owners = before ++ .entity e :: rest →
        (Entity.detach hub e).Serves (before ++ rest)) ∧
      ∀ coils includeDisabled,
        (Entity.attachEach hub coils includeDisabled).2.Serves
          (owners ++ (Entity.attachEach hub coils includeDisabled).1.map .entity) ∧
        (Entity.attachEach hub coils includeDisabled).1.map Entity.coil =
          coils.filter fun coil => includeDisabled || coil.description.enabledByDefault := by
  refine ⟨h.enlists.serves, ?_, ?_⟩
  · rintro before e rest rfl
    exact h.drop.enlists.serves
  · intro coils includeDisabled
    exact ⟨(h.setup coils includeDisabled).enlists.serves,
      Entity.coils_attachEach hub coils includeDisabled⟩

-- Two entities share a coil, and a panel asks for it as well. A third entity has another coil. Then the
-- first entity is dropped, and the panel turns to something else.
def furnished : Hub :=
  let shared := Entity.attachEach { settings := {}, model := .f1155, gateway := { source := .echo } }
    [System.thermometer.coil, System.thermometer.coil] true
  let other := Entity.attach (shared.2.listen "panel" [1, 7] []) { System.thermometer.coil with address := 3 }
  (Entity.detach other.2 System.thermometer).listen "panel" [7] []

-- The coil is fetched for the second entity, and no longer once that one is gone too.
theorem roll_call_furnished :
    furnished.registry.size = 3 ∧ 1 ∈ furnished.fetchList ∧
      1 ∉ (Entity.detach furnished { System.thermometer with index := 1 }).fetchList := by
  let second : Entity := { System.thermometer with index := 1 }
  let third : Entity :=
    { coil := { System.thermometer.coil with address := 3 }, uniqueId := "nibe-heatpump-3", index := 2 }
  let panel : Owner := .manual "panel" [7] ⟨[7], .script 1 []⟩
  have hopen : Roll { settings := {}, model := .f1155, gateway := { source := .echo } } [] := .opens
  have hset : Roll _ _ := hopen.setup [System.thermometer.coil, System.thermometer.coil] true
  have hpanel : Roll (Hub.listen _ "panel" [1, 7] []) _ := hset.register [1, 7] [] (by decide)
  have hother : Roll _ ([] ++ .entity System.thermometer :: .entity second ::
      .manual "panel" [1, 7] ⟨[1, 7], .script 0 []⟩ :: [.entity third]) :=
    hpanel.attach { System.thermometer.coil with address := 3 }
  have hroll : Roll furnished ([.entity second] ++ panel :: [.entity third]) :=
    hother.drop.renew [7] []
  obtain ⟨hserves, hdrop, -⟩ := roll_call hroll
  have hfetched : 1 ∈ furnished.fetchList :=
    (hserves.fetched 1).mpr ⟨.entity second, List.mem_cons_self, List.mem_singleton.mpr rfl⟩
  refine ⟨hserves.size, hfetched, ?_⟩
  rw [(hdrop [] second [panel, .entity third] rfl).fetched]
  simp [Owner.interest, panel, third]

end Hub

end CoilHub
