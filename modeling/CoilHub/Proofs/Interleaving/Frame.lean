import CoilHub.Proofs.Interleaving.Moves

namespace CoilHub

namespace Registry

variable {η κ : Type} [DecidableEq η]

theorem mem_place_self (l : Listener η κ) (ls : List (Listener η κ)) : l ∈ place l ls := by
  induction ls with
  | nil => simp [place]
  | cons m rest ih =>
      simp only [place]
      split
      · exact List.mem_cons_self
      · exact List.mem_cons_of_mem m ih

theorem mem_place {l m : Listener η κ} {ls : List (Listener η κ)} (hm : m ∈ place l ls) :
    m = l ∨ m ∈ ls := by
  induction ls with
  | nil => exact .inl (List.mem_singleton.mp hm)
  | cons first rest ih =>
      unfold place at hm
      split at hm
      · exact (List.mem_cons.mp hm).imp id (List.mem_cons_of_mem first)
      · rcases List.mem_cons.mp hm with rfl | hrest
        · exact .inr List.mem_cons_self
        · exact (ih hrest).imp id (List.mem_cons_of_mem first)

theorem mem_place_of_ne {l m : Listener η κ} {ls : List (Listener η κ)} (hm : m ∈ ls)
    (hne : m.handle ≠ l.handle) : m ∈ place l ls := by
  induction ls with
  | nil => simp at hm
  | cons first rest ih =>
      simp only [place]
      rcases List.mem_cons.mp hm with rfl | hm
      · simp [hne]
      · split
        · exact List.mem_cons_of_mem _ hm
        · exact List.mem_cons_of_mem _ (ih hm)

def Distinct (r : Registry η κ) : Prop := (r.listeners.map (·.handle)).Nodup

theorem distinct_register {r : Registry η κ} (h : r.Distinct) (l : Listener η κ) :
    (r.register l).Distinct := by
  unfold Distinct register
  dsimp only
  rw [handles_place]
  by_cases hl : l.handle ∈ r.listeners.map (·.handle)
  · rw [if_pos hl]
    exact h
  · rw [if_neg hl]
    refine List.nodup_append.mpr ⟨h, by simp, ?_⟩
    intro x hx y hy heq
    rw [List.mem_singleton.mp hy] at heq
    exact hl (heq ▸ hx)

theorem distinct_deregister {r : Registry η κ} (h : r.Distinct) (handle : η) :
    (r.deregister handle).Distinct :=
  List.Nodup.sublist (List.filter_sublist.map _) h

end Registry

namespace Hub

-- The listeners of entities have a display each.
def Seated (hub : Hub) : Prop :=
  ∀ l ∈ hub.registry.listeners, ∀ index, l.handle = .entity index → index < hub.displays.length

-- What stays when listeners react.
structure Kept (before after : Hub) : Prop where
  settings : after.settings = before.settings
  cache : after.cache = before.cache
  success : after.lastSuccess = before.lastSuccess
  cancelled : before.cancelled = true → after.cancelled = true
  displays : before.displays.length ≤ after.displays.length
  entities : ∀ l ∈ before.registry.listeners, ∀ index < before.displays.length,
    l.handle = .entity index → l ∈ after.registry.listeners
  distinct : before.registry.Distinct → after.registry.Distinct
  seated : before.Seated → after.Seated
  nesting : after.nesting = before.nesting

theorem Kept.refl (hub : Hub) : hub.Kept hub :=
  ⟨rfl, rfl, rfl, id, Nat.le_refl _, fun _ hl _ _ _ => hl, id, id, rfl⟩

theorem Kept.of_eq {before after : Hub} (hsettings : after.settings = before.settings)
    (hcache : after.cache = before.cache) (hsuccess : after.lastSuccess = before.lastSuccess)
    (hcancelled : after.cancelled = before.cancelled)
    (hdisplays : after.displays.length = before.displays.length)
    (hregistry : after.registry = before.registry) (hnesting : after.nesting = before.nesting) :
    before.Kept after :=
  ⟨hsettings, hcache, hsuccess, fun h => hcancelled.trans h, Nat.le_of_eq hdisplays.symm,
    fun _ hl _ _ _ => hregistry ▸ hl, fun h => hregistry ▸ h, by
      unfold Seated
      rw [hregistry, hdisplays]
      exact id, hnesting⟩

theorem Kept.trans {a b c : Hub} (hab : a.Kept b) (hbc : b.Kept c) : a.Kept c where
  settings := hbc.settings.trans hab.settings
  cache := hbc.cache.trans hab.cache
  success := hbc.success.trans hab.success
  cancelled := fun h => hbc.cancelled (hab.cancelled h)
  displays := Nat.le_trans hab.displays hbc.displays
  entities := fun l hl index hi he =>
    hbc.entities l (hab.entities l hl index hi he) index (Nat.lt_of_lt_of_le hi hab.displays) he
  distinct := fun h => hbc.distinct (hab.distinct h)
  seated := fun h => hbc.seated (hab.seated h)
  nesting := hbc.nesting.trans hab.nesting

theorem kept_foldl {α : Type} {f : Hub → α → Hub} (hf : ∀ (hub : Hub) x, hub.Kept (f hub x)) (l : List α)
    (hub : Hub) : hub.Kept (l.foldl f hub) := by
  induction l generalizing hub with
  | nil => exact .refl hub
  | cons x rest ih => exact (hf hub x).trans (ih (f hub x))

theorem kept_emit (hub : Hub) (e : Event) : hub.Kept (hub.emit e) :=
  .of_eq rfl rfl rfl rfl rfl rfl rfl

theorem kept_mapPump (hub : Hub) (f : Pump → Pump) : hub.Kept (hub.mapPump f) :=
  .of_eq rfl rfl rfl rfl rfl rfl rfl

theorem kept_wake (hub : Hub) (task : TaskId) : hub.Kept (hub.wake task) :=
  .of_eq rfl rfl rfl rfl rfl rfl rfl

theorem kept_requestRefresh (hub : Hub) : hub.Kept hub.requestRefresh := by
  unfold requestRefresh
  split <;> exact .of_eq rfl rfl rfl rfl rfl rfl rfl

-- Registering takes the place of nobody but the listener with that handle.
theorem kept_register (hub : Hub) (l : HubListener) (hl : ∀ index, l.handle ≠ .entity index) :
    hub.Kept (hub.register l) where
  settings := rfl
  cache := rfl
  success := rfl
  cancelled := id
  displays := Nat.le_refl _
  entities := by
    intro m hm index hi he
    apply Registry.mem_place_of_ne hm
    intro heq
    exact hl index (heq.symm.trans he)
  distinct := fun h => Registry.distinct_register h l
  seated := by
    intro hseated m hm index he
    rcases Registry.mem_place hm with rfl | hm
    · exact absurd he (hl index)
    · exact hseated m hm index he
  nesting := rfl

theorem kept_deregister_named (hub : Hub) (name : String) :
    hub.Kept (hub.deregister (.named name)) where
  settings := rfl
  cache := rfl
  success := rfl
  cancelled := id
  displays := Nat.le_refl _
  entities := by
    intro m hm index hi he
    apply List.mem_filter.mpr
    refine ⟨hm, decide_eq_true ?_⟩
    intro heq
    rw [heq] at he
    cases he
  distinct := fun h => Registry.distinct_deregister h _
  seated := fun hseated m hm => hseated m (List.mem_filter.mp hm).1
  nesting := rfl

theorem kept_listen (hub : Hub) (name : String) (interest : List Address)
    (actions : List (Option Nat × Action)) : hub.Kept (hub.listen name interest actions) := by
  have hcounters : hub.Kept { hub with counters := hub.counters ++ [0] } :=
    .of_eq rfl rfl rfl rfl rfl rfl rfl
  apply hcounters.trans
  apply kept_register
  intro index he
  cases he

theorem kept_refreshDisplay (hub : Hub) (index : Nat) (a : Address) :
    hub.Kept (hub.refreshDisplay index a) := by
  unfold refreshDisplay
  split
  · exact .refl hub
  · exact .of_eq rfl rfl rfl rfl (List.length_modify ..) rfl rfl

theorem kept_perform {notify : Hub → Hub} (hn : ∀ hub : Hub, hub.Kept (notify hub)) (hub : Hub)
    (action : Action) : hub.Kept (perform notify hub action) := by
  cases action with
  | listen name interest actions => exact kept_listen hub name interest actions
  | unlisten name => exact kept_deregister_named hub name
  | setValue a value => exact kept_mapPump hub _
  | failRead a e times => exact kept_mapPump hub _
  | failWrite a e times => exact kept_mapPump hub _
  | cancel => exact ⟨rfl, rfl, rfl, fun _ => rfl, Nat.le_refl _, fun _ hl _ _ _ => hl, id, id, rfl⟩
  | requestRefresh => exact kept_requestRefresh hub
  | notify => exact hn hub

theorem kept_react {notify : Hub → Hub} (hn : ∀ hub : Hub, hub.Kept (notify hub)) (hub : Hub)
    (effect : Effect) : hub.Kept (react notify hub effect) := by
  cases effect with
  | display index a => exact kept_refreshDisplay hub index a
  | script counter actions =>
      have hcount : ∀ counters, hub.Kept { hub with counters } :=
        fun _ => .of_eq rfl rfl rfl rfl rfl rfl rfl
      refine (hcount _).trans (kept_foldl ?_ actions _)
      rintro hub ⟨on, action⟩
      dsimp only
      split
      · exact kept_perform hn hub action
      · exact .refl hub

-- The induction is on how deep listeners may still notify one another.
theorem kept_callWithin (depth : Nat) (hub : Hub) (l : HubListener) :
    hub.Kept (callWithin depth hub l) := by
  induction depth generalizing hub l with
  | zero => exact .refl hub
  | succ depth ih =>
      have hnotify : ∀ hub : Hub, hub.Kept (hub.registry.listeners.foldl (callWithin depth) hub) :=
        fun hub => kept_foldl ih _ hub
      exact (kept_emit hub _).trans (kept_react hnotify _ _)

theorem kept_call (hub : Hub) (l : HubListener) : hub.Kept (hub.call l) :=
  kept_callWithin (hub.nesting + 1) hub l

theorem kept_callEach (hub : Hub) (ls : List HubListener) : hub.Kept (hub.callEach ls) :=
  kept_foldl kept_call ls hub

theorem kept_act (hub : Hub) (action : Action) : hub.Kept (hub.act action) :=
  kept_perform (fun hub => kept_callEach hub _) hub action

theorem kept_attach (hub : Hub) (coil : Coil) : hub.Kept (Entity.attach hub coil).2 where
  settings := rfl
  cache := rfl
  success := rfl
  cancelled := id
  displays := by simp [Entity.attach, register]
  entities := by
    intro m hm index hi he
    apply Registry.mem_place_of_ne hm
    rw [he]
    intro heq
    injection heq with heq
    omega
  distinct := fun h => Registry.distinct_register h _
  seated := by
    intro hseated m hm index he
    have hlength : (Entity.attach hub coil).2.displays.length = hub.displays.length + 1 := by
      simp [Entity.attach, register]
    rw [hlength]
    rcases Registry.mem_place hm with rfl | hm
    · injection he with he
      omega
    · exact Nat.lt_succ_of_lt (hseated m hm index he)
  nesting := rfl

end Hub

end CoilHub
