import CoilHub.Proofs.Entities.Display
import Mathlib.Algebra.Ring.Nat
import Mathlib.Data.List.Basic
import Mathlib.Logic.Function.Iterate

namespace CoilHub

-- A hub, and how often all of its listeners have been called.
structure Tallied where
  hub : Hub
  broadcasts : Nat := 0

namespace Tallied

def mapHub (c : Tallied) (f : Hub → Hub) : Tallied := { c with hub := f c.hub }

def announce (c : Tallied) : Tallied := { c with broadcasts := c.broadcasts + 1 }

-- What listeners do when they are called, with the broadcasts counted.
def perform (notify : Tallied → Tallied) (c : Tallied) : Action → Tallied
  | .notify => notify c
  | action => c.mapHub (Hub.perform id · action)

def react (notify : Tallied → Tallied) (c : Tallied) : Effect → Tallied
  | .display index a => c.mapHub (·.refreshDisplay index a)
  | .script counter actions =>
    let count := c.hub.counters[counter]?.getD 0 + 1
    let c := c.mapHub fun hub => { hub with counters := hub.counters.set counter count }
    actions.foldl (fun c (on, action) =>
      if on.all (· = count) then perform notify c action else c) c

-- A broadcast that is made where the calls go no deeper reaches nobody, and does not count.
def callWithin : Nat → Tallied → HubListener → Tallied
  | 0, c, _ => c
  | depth + 1, c, l =>
    let seen := l.reaction.looksAt.map c.hub.cache.get?
    react (fun c => c.hub.registry.listeners.foldl (callWithin depth)
        (if depth = 0 then c else c.announce))
      (c.mapHub (·.emit (.called l.handle seen))) l.reaction.effect

def call (c : Tallied) (l : HubListener) : Tallied := callWithin (c.hub.nesting + 1) c l

def callEach (c : Tallied) (ls : List HubListener) : Tallied := ls.foldl call c

def act (c : Tallied) (action : Action) : Tallied :=
  perform (fun c => c.announce.callEach c.hub.registry.listeners) c action

section

variable {notify : Tallied → Tallied} {plain : Hub → Hub}
  (hnotify : ∀ c, (notify c).hub = plain c.hub)
include hnotify

theorem hub_perform (c : Tallied) (action : Action) :
    (c.perform notify action).hub = Hub.perform plain c.hub action := by
  cases action with
  | notify => exact hnotify c
  | _ => rfl

theorem hub_react (c : Tallied) (effect : Effect) :
    (c.react notify effect).hub = Hub.react plain c.hub effect := by
  cases effect with
  | display index a => rfl
  | script counter actions =>
      unfold react Hub.react
      dsimp only
      rw [← List.foldl_hom Tallied.hub]
      · rfl
      · rintro c ⟨on, action⟩
        dsimp only
        split
        · exact (hub_perform hnotify c action).symm
        · rfl

end

-- The induction is on how deep listeners may still notify one another.
theorem hub_callWithin (depth : Nat) (c : Tallied) (l : HubListener) :
    (callWithin depth c l).hub = Hub.callWithin depth c.hub l := by
  induction depth generalizing c l with
  | zero => rfl
  | succ depth ih =>
      refine hub_react (fun c => ?_) _ _
      have hsame : (if depth = 0 then c else c.announce).hub = c.hub := by split <;> rfl
      rw [← hsame]
      symm
      exact List.foldl_hom Tallied.hub fun c l => (ih c l).symm

theorem hub_callEach (c : Tallied) (ls : List HubListener) :
    (c.callEach ls).hub = c.hub.callEach ls := by
  symm
  exact List.foldl_hom Tallied.hub fun c l => (hub_callWithin (c.hub.nesting + 1) c l).symm

theorem hub_act (c : Tallied) (action : Action) : (c.act action).hub = c.hub.act action :=
  hub_perform (fun c => hub_callEach c.announce _) c action

end Tallied

namespace Hub

-- How many broadcasts are made when these listeners are called.
def broadcastsOf (hub : Hub) (ls : List HubListener) : Nat :=
  (Tallied.callEach { hub } ls).broadcasts

-- How many are made in the course of an action.
def broadcastsOfAct (hub : Hub) (action : Action) : Nat := (Tallied.act { hub } action).broadcasts

end Hub

-- What becomes of a display when the cached value is taken over, if there is one.
def Display.takeOver (cached : Option CoilValue) (d : Display) : Display :=
  match cached with
  | none => d
  | some value => { value := some value, version := d.version + 1 }

namespace Entity

variable {e : Entity} {hub : Hub} {ls : List HubListener}

theorem display_refreshDisplay (hseated : e.index < hub.displays.length) (index : Nat) (a : Address) :
    e.display (hub.refreshDisplay index a) =
      if index = e.index then (e.display hub).takeOver (hub.cache.get? a) else e.display hub := by
  unfold Hub.refreshDisplay Display.takeOver
  cases hub.cache.get? a with
  | none => simp
  | some value =>
      unfold display
      dsimp only
      rw [List.getElem?_modify, List.getElem?_eq_getElem hseated]
      split <;> rfl

-- A listener is the one of the entity, or it neither goes by the entity's handle nor writes to its
-- display.
def Undisputed (e : Entity) (l : HubListener) : Prop :=
  l = e.listener ∨ l.handle ≠ e.handle ∧ ∀ a, l.reaction.effect ≠ .display e.index a

-- The entity is among these listeners, and none of them takes its part.
structure Enrolled (e : Entity) (ls : List HubListener) : Prop where
  listed : e.listener ∈ ls
  others : ∀ l ∈ ls, e.Undisputed l

-- An entity that is registered and has a display to itself.
structure Present (e : Entity) (hub : Hub) : Prop where
  seated : e.index < hub.displays.length
  enrolled : e.Enrolled hub.registry.listeners
  distinct : hub.registry.Distinct

theorem Undisputed.tuned {l : HubListener} (h : e.Undisputed l) : e.Tuned l.reaction.effect := by
  rcases h with rfl | ⟨-, hother⟩
  · exact fun _ => rfl
  · cases heffect : l.reaction.effect with
    | script counter actions => trivial
    | display index a =>
        rintro rfl
        exact absurd heffect (hother a)

theorem Present.of_eq (h : e.Present hub) {after : Hub} (hregistry : after.registry = hub.registry)
    (hdisplays : after.displays = hub.displays) : e.Present after where
  seated := hdisplays ▸ h.seated
  enrolled := hregistry ▸ h.enrolled
  distinct := hregistry ▸ h.distinct

theorem Present.register (h : e.Present hub) {l : HubListener} (hhandle : l.handle ≠ e.handle)
    (hother : ∀ a, l.reaction.effect ≠ .display e.index a) : e.Present (hub.register l) where
  seated := h.seated
  enrolled := by
    refine ⟨Registry.mem_place_of_ne h.enrolled.listed (Ne.symm hhandle), ?_⟩
    intro m hmem
    rcases Registry.mem_place hmem with rfl | hmem
    · exact .inr ⟨hhandle, hother⟩
    · exact h.enrolled.others m hmem
  distinct := Registry.distinct_register h.distinct l

theorem Present.deregister (h : e.Present hub) {handle : Handle} (hne : handle ≠ e.handle) :
    e.Present (hub.deregister handle) where
  seated := h.seated
  enrolled := by
    refine ⟨List.mem_filter.mpr ⟨h.enrolled.listed, decide_eq_true (Ne.symm hne)⟩, ?_⟩
    exact fun l hmem => h.enrolled.others l (List.mem_filter.mp hmem).1
  distinct := Registry.distinct_deregister h.distinct handle

-- It is not broken by listeners.
theorem present_lasting (e : Entity) :
    Hub.Lasting e.Present e.Enrolled e.Tuned fun _ => True where
  quiet := fun h hquiet => h.of_eq hquiet.registry hquiet.displays
  registry := Present.enrolled
  safe := fun h l hmem => (h.others l hmem).tuned
  mild := fun _ _ _ => trivial
  display := by
    intro hub index a h _
    unfold Hub.refreshDisplay
    split
    · exact h
    · exact ⟨by simpa using h.seated, h.enrolled, h.distinct⟩
  listen := by
    intro hub name interest actions h _
    have hcounted : e.Present { hub with counters := hub.counters ++ [0] } := h.of_eq rfl rfl
    exact hcounted.register nofun nofun
  unlisten := fun h => h.deregister nofun
  setValue := fun h _ => h.of_eq rfl rfl

def owns (e : Entity) (l : HubListener) : Bool := decide (l.handle = e.handle)

-- How often it is the entity's turn when these listeners are called one after another.
def turnsIn (e : Entity) (ls : List HubListener) : Nat := ls.countP e.owns

theorem turnsIn_filter (h : e.listener ∈ ls) (hunique : (ls.map (·.handle)).Nodup)
    (test : HubListener → Bool) :
    e.turnsIn (ls.filter test) = if test e.listener then 1 else 0 :=
  countP_handle hunique (.refl _) h

theorem Present.turnsIn_registry (h : e.Present hub) : e.turnsIn hub.registry.listeners = 1 := by
  have hall := turnsIn_filter h.enrolled.listed h.distinct fun _ => true
  rwa [List.filter_eq_self.mpr fun _ _ => rfl] at hall

end Entity

namespace Tallied

-- Calls have been made in which it was the entity's turn that often, and it has taken the cached
-- value over once for each of its turns and each broadcast.
structure Tells (e : Entity) (turns : Nat) (before after : Tallied) : Prop where
  present : e.Present after.hub
  cache : after.hub.cache = before.hub.cache
  display : ∃ n, after.broadcasts = before.broadcasts + n ∧
    e.display after.hub =
      (Display.takeOver (before.hub.cache.get? e.coil.address))^[turns + n] (e.display before.hub)

variable {e : Entity} {c : Tallied}

namespace Tells

theorem of_eq {after : Tallied} (hpresent : e.Present after.hub)
    (hcache : after.hub.cache = c.hub.cache) (hbroadcasts : after.broadcasts = c.broadcasts)
    (hdisplay : e.display after.hub = e.display c.hub) : Tells e 0 c after :=
  ⟨hpresent, hcache, 0, hbroadcasts, hdisplay⟩

theorem trans {a b c : Tallied} {turns more : Nat} (h : Tells e turns a b) (h' : Tells e more b c) :
    Tells e (turns + more) a c := by
  obtain ⟨n, hn, hdisplay⟩ := h.display
  obtain ⟨k, hk, hdisplay'⟩ := h'.display
  refine ⟨h'.present, h'.cache.trans h.cache, n + k, by omega, ?_⟩
  have hsum : turns + more + (n + k) = (more + k) + (turns + n) := by omega
  rw [hsum, Function.iterate_add_apply, ← hdisplay, ← h.cache]
  exact hdisplay'

theorem of_quiet {a b c : Tallied} {turns : Nat} (h : Tells e 0 a b) (h' : Tells e turns b c) :
    Tells e turns a c := by
  simpa using h.trans h'

theorem foldl {α : Type} {f : Tallied → α → Tallied} {turn : α → Bool} {l : List α}
    (hf : ∀ x ∈ l, ∀ c : Tallied, e.Present c.hub → Tells e (if turn x then 1 else 0) c (f c x))
    (h : e.Present c.hub) : Tells e (l.countP turn) c (l.foldl f c) := by
  induction l generalizing c with
  | nil => exact of_eq h rfl rfl rfl
  | cons x rest ih =>
      have hx := hf x List.mem_cons_self c h
      have hrest := ih (fun y hy => hf y (List.mem_cons_of_mem x hy)) hx.present
      rw [List.countP_cons, Nat.add_comm]
      exact hx.trans hrest

theorem foldl_quiet {α : Type} {f : Tallied → α → Tallied} {l : List α}
    (hf : ∀ x ∈ l, ∀ c : Tallied, e.Present c.hub → Tells e 0 c (f c x)) (h : e.Present c.hub) :
    Tells e 0 c (l.foldl f c) := by
  have hfold : Tells e (l.countP fun _ => false) c (l.foldl f c) := foldl (by simpa using hf) h
  simpa using hfold

end Tells

-- What an action of a listener does to the hub, if it is no broadcast.
theorem tells_perform {notify : Tallied → Tallied}
    (hnotify : ∀ c : Tallied, e.Present c.hub → Tells e 0 c (notify c)) (h : e.Present c.hub)
    (action : Action) : Tells e 0 c (c.perform notify action) := by
  have hpresent : e.Present (Hub.perform id c.hub action) :=
    e.present_lasting.perform (fun _ h => h) h trivial
  have hcache : (Hub.perform id c.hub action).cache = c.hub.cache :=
    (Hub.kept_perform Hub.Kept.refl c.hub action).cache
  cases action with
  | notify => exact hnotify c h
  | requestRefresh =>
      have hquiet : c.hub.Quiet c.hub.requestRefresh := Hub.quiet_requestRefresh
      refine .of_eq hpresent hcache rfl ?_
      show c.hub.requestRefresh.displays[e.index]?.getD {} = c.hub.displays[e.index]?.getD {}
      rw [hquiet.displays]
  | _ => exact .of_eq hpresent hcache rfl rfl

section

variable {notify : Tallied → Tallied}
  (hnotify : ∀ c : Tallied, e.Present c.hub → Tells e 0 c (notify c)) (h : e.Present c.hub)
include hnotify h

theorem tells_script (counter : Nat) (actions : List (Option Nat × Action)) :
    Tells e 0 c (c.react notify (.script counter actions)) := by
  have hcounted : ∀ counters, Tells e 0 c (c.mapHub fun hub => { hub with counters }) :=
    fun _ => .of_eq ⟨h.seated, h.enrolled, h.distinct⟩ rfl rfl rfl
  unfold react
  dsimp only
  refine (hcounted _).of_quiet (.foldl_quiet ?_ (hcounted _).present)
  rintro ⟨on, action⟩ - c h
  dsimp only
  split
  · exact tells_perform hnotify h action
  · exact .of_eq h rfl rfl rfl

theorem tells_react {l : HubListener} (hl : e.Undisputed l) :
    Tells e (if e.owns l then 1 else 0) c (c.react notify l.reaction.effect) := by
  have hcache := fun index a => (Hub.kept_refreshDisplay c.hub index a).cache
  rcases hl with rfl | ⟨hhandle, hother⟩
  · have hpresent : e.Present (c.hub.refreshDisplay e.index e.coil.address) :=
      e.present_lasting.display h fun _ => rfl
    refine ⟨hpresent, hcache _ _, 0, rfl, ?_⟩
    have howns : e.owns e.listener = true := decide_eq_true rfl
    rw [howns]
    exact (e.display_refreshDisplay h.seated _ _).trans (if_pos rfl)
  · have howns : e.owns l = false := decide_eq_false hhandle
    rw [howns]
    cases heffect : l.reaction.effect with
    | script counter actions => exact tells_script hnotify h counter actions
    | display index a =>
        have hindex : index ≠ e.index := by
          rintro rfl
          exact hother a heffect
        have hpresent : e.Present (c.hub.refreshDisplay index a) :=
          e.present_lasting.display h fun heq => absurd heq hindex
        exact .of_eq hpresent (hcache _ _) rfl
          ((e.display_refreshDisplay h.seated _ _).trans (if_neg hindex))

theorem tells_call (event : Event) {l : HubListener} (hl : e.Undisputed l) :
    Tells e (if e.owns l then 1 else 0) c
      ((c.mapHub (·.emit event)).react notify l.reaction.effect) := by
  have hemitted : Tells e 0 c (c.mapHub (·.emit event)) :=
    .of_eq ⟨h.seated, h.enrolled, h.distinct⟩ rfl rfl rfl
  exact hemitted.of_quiet (tells_react hnotify hemitted.present hl)

end

-- Notifying everybody comes to one turn, which the broadcast stands for.
theorem tells_notify {call : Tallied → HubListener → Tallied}
    (hcall : ∀ c l, e.Present c.hub → e.Undisputed l →
      Tells e (if e.owns l then 1 else 0) c (call c l)) (h : e.Present c.hub) :
    Tells e 0 c (c.hub.registry.listeners.foldl call c.announce) := by
  have hcalled : Tells e (e.turnsIn c.hub.registry.listeners) c.announce
      (c.hub.registry.listeners.foldl call c.announce) := by
    refine Tells.foldl ?_ h
    exact fun l hmem c' h' => hcall c' l h' (h.enrolled.others l hmem)
  rw [h.turnsIn_registry] at hcalled
  obtain ⟨hpresent, hcache, n, hn, hdisplay⟩ := hcalled
  refine ⟨hpresent, hcache, 1 + n, ?_, ?_⟩
  · rw [hn, announce, Nat.add_assoc]
  · rw [Nat.zero_add]
    exact hdisplay

-- The induction is on how deep listeners may still notify one another.
theorem tells_callWithin (depth : Nat) (h : e.Present c.hub) {l : HubListener}
    (hl : e.Undisputed l) :
    Tells e (if e.owns l then 1 else 0) c (callWithin (depth + 1) c l) := by
  induction depth generalizing c l with
  | zero =>
      refine tells_call (fun c h => ?_) h _ hl
      have hnobody : c.hub.registry.listeners.foldl (callWithin 0) c = c :=
        List.foldl_fixed' (fun _ => rfl) _
      rw [if_pos rfl, hnobody]
      exact .of_eq h rfl rfl rfl
  | succ depth ih =>
      refine tells_call (fun c h => ?_) h _ hl
      rw [if_neg (Nat.succ_ne_zero depth)]
      exact tells_notify (fun c l h hl => ih h hl) h

theorem tells_callEach (h : e.Present c.hub) {ls : List HubListener}
    (hls : ∀ l ∈ ls, e.Undisputed l) : Tells e (e.turnsIn ls) c (c.callEach ls) := by
  refine Tells.foldl ?_ h
  exact fun l hmem c' h' => tells_callWithin c'.hub.nesting h' (hls l hmem)

theorem tells_act (h : e.Present c.hub) (action : Action) : Tells e 0 c (c.act action) := by
  refine tells_perform (fun c h => ?_) h action
  exact tells_notify (fun c' l h' hl => tells_callWithin c'.hub.nesting h' hl) h

end Tallied

namespace Entity

variable {e : Entity} {hub : Hub} (h : e.Present hub)
include h

-- When listeners are called, an entity takes the cached value over once for each of its turns and for
-- each broadcast.
theorem display_callEach {ls : List HubListener} (hls : ∀ l ∈ ls, e.Undisputed l) :
    e.display (hub.callEach ls) =
      (Display.takeOver (hub.cache.get? e.coil.address))^[e.turnsIn ls + hub.broadcastsOf ls]
        (e.display hub) := by
  obtain ⟨-, -, n, hn, hdisplay⟩ := Tallied.tells_callEach (c := { hub }) h hls
  have hcount : hub.broadcastsOf ls = n := by simpa [Hub.broadcastsOf] using hn
  rw [← Tallied.hub_callEach { hub } ls, hdisplay, hcount]

theorem display_act (action : Action) :
    e.display (hub.act action) =
      (Display.takeOver (hub.cache.get? e.coil.address))^[hub.broadcastsOfAct action]
        (e.display hub) := by
  obtain ⟨-, -, n, hn, hdisplay⟩ := Tallied.tells_act (c := { hub }) h action
  have hcount : hub.broadcastsOfAct action = n := by simpa [Hub.broadcastsOfAct] using hn
  rw [← Tallied.hub_act { hub } action, hdisplay, hcount, Nat.zero_add]

end Entity

end CoilHub
