import CoilHub.Proofs.Interleaving.Outside
import Mathlib.Algebra.Ring.Nat
import Mathlib.Logic.Function.Iterate

namespace CoilHub

def Doorbell.ring (d : Doorbell) : Doorbell :=
  match d.waiting with
  | [] => { d with kept := true }
  | task :: waiting => { d with waiting, reached := d.reached ++ [task] }

theorem Hub.doorbell_requestRefresh (hub : Hub) :
    hub.requestRefresh.doorbell = hub.doorbell.ring := by
  unfold requestRefresh Doorbell.ring
  cases hw : hub.doorbell.waiting with
  | nil => simp [hw]
  | cons task waiting => rfl

-- A hub, and how often a refresh has been asked for.
structure Counted where
  hub : Hub
  requests : Nat := 0

namespace Counted

def mapHub (c : Counted) (f : Hub → Hub) : Counted := { c with hub := f c.hub }

def requestRefresh (c : Counted) : Counted :=
  { hub := c.hub.requestRefresh, requests := c.requests + 1 }

-- What listeners do when they are called, with the requests counted.
def perform (notify : Counted → Counted) (c : Counted) : Action → Counted
  | .requestRefresh => c.requestRefresh
  | .notify => notify c
  | action => c.mapHub (Hub.perform id · action)

def react (notify : Counted → Counted) (c : Counted) : Effect → Counted
  | .display index a => c.mapHub (·.refreshDisplay index a)
  | .script counter actions =>
    let count := c.hub.counters[counter]?.getD 0 + 1
    let c := c.mapHub fun hub => { hub with counters := hub.counters.set counter count }
    actions.foldl (fun c (on, action) =>
      if on.all (· = count) then perform notify c action else c) c

def callWithin : Nat → Counted → HubListener → Counted
  | 0, c, _ => c
  | depth + 1, c, l =>
    let seen := l.reaction.looksAt.map c.hub.cache.get?
    react (fun c => c.hub.registry.listeners.foldl (callWithin depth) c)
      (c.mapHub (·.emit (.called l.handle seen))) l.reaction.effect

def call (c : Counted) (l : HubListener) : Counted := callWithin (c.hub.nesting + 1) c l

def callEach (c : Counted) (ls : List HubListener) : Counted := ls.foldl call c

def act (c : Counted) (action : Action) : Counted :=
  perform (fun c => c.callEach c.hub.registry.listeners) c action

section

variable {notify : Counted → Counted} {plain : Hub → Hub}
  (hnotify : ∀ c, (notify c).hub = plain c.hub)
include hnotify

theorem hub_perform (c : Counted) (action : Action) :
    (c.perform notify action).hub = Hub.perform plain c.hub action := by
  cases action with
  | notify => exact hnotify c
  | _ => rfl

theorem hub_react (c : Counted) (effect : Effect) :
    (c.react notify effect).hub = Hub.react plain c.hub effect := by
  cases effect with
  | display index a => rfl
  | script counter actions =>
      unfold react Hub.react
      dsimp only
      rw [← List.foldl_hom Counted.hub]
      · rfl
      · rintro c ⟨on, action⟩
        dsimp only
        split
        · exact (hub_perform hnotify c action).symm
        · rfl

end

-- The induction is on how deep listeners may still notify one another.
theorem hub_callWithin (depth : Nat) (c : Counted) (l : HubListener) :
    (callWithin depth c l).hub = Hub.callWithin depth c.hub l := by
  induction depth generalizing c l with
  | zero => rfl
  | succ depth ih =>
      refine hub_react (fun c => ?_) _ _
      symm
      exact List.foldl_hom Counted.hub fun c l => (ih c l).symm

theorem hub_callEach (c : Counted) (ls : List HubListener) :
    (c.callEach ls).hub = c.hub.callEach ls := by
  symm
  exact List.foldl_hom Counted.hub fun c l => (hub_callWithin (c.hub.nesting + 1) c l).symm

theorem hub_act (c : Counted) (action : Action) : (c.act action).hub = c.hub.act action :=
  hub_perform (fun c => hub_callEach c _) c action

-- The doorbell has been rung once for each request that was made in between, and not touched
-- otherwise.
def Rings (before after : Counted) : Prop :=
  ∃ n, after.requests = before.requests + n ∧
    after.hub.doorbell = Doorbell.ring^[n] before.hub.doorbell

namespace Rings

theorem of_eq {before after : Counted} (hrequests : after.requests = before.requests)
    (hbell : after.hub.doorbell = before.hub.doorbell) : before.Rings after :=
  ⟨0, hrequests, hbell⟩

theorem trans {a b c : Counted} (h : a.Rings b) (h' : b.Rings c) : a.Rings c := by
  obtain ⟨n, hn, hbell⟩ := h
  obtain ⟨k, hk, hbell'⟩ := h'
  refine ⟨k + n, by omega, ?_⟩
  rw [hbell', hbell, Function.iterate_add_apply]

theorem foldl {α : Type} {f : Counted → α → Counted} (hf : ∀ (c : Counted) x, c.Rings (f c x))
    (l : List α) (c : Counted) : c.Rings (l.foldl f c) := by
  induction l generalizing c with
  | nil => exact of_eq rfl rfl
  | cons x rest ih => exact (hf c x).trans (ih (f c x))

end Rings

theorem rings_requestRefresh (c : Counted) : c.Rings c.requestRefresh :=
  ⟨1, rfl, c.hub.doorbell_requestRefresh⟩

theorem rings_perform {notify : Counted → Counted} (hnotify : ∀ c : Counted, c.Rings (notify c))
    (c : Counted) (action : Action) : c.Rings (c.perform notify action) := by
  cases action with
  | requestRefresh => exact rings_requestRefresh c
  | notify => exact hnotify c
  | _ => exact .of_eq rfl rfl

theorem rings_react {notify : Counted → Counted} (hnotify : ∀ c : Counted, c.Rings (notify c))
    (c : Counted) (effect : Effect) : c.Rings (c.react notify effect) := by
  cases effect with
  | display index a =>
      refine .of_eq rfl ?_
      simp only [react, mapHub, Hub.refreshDisplay]
      split <;> rfl
  | script counter actions =>
      unfold react
      dsimp only
      have hcounted : ∀ counters, c.Rings (c.mapHub fun hub => { hub with counters }) :=
        fun _ => .of_eq rfl rfl
      refine (hcounted _).trans (.foldl ?_ actions _)
      rintro c ⟨on, action⟩
      dsimp only
      split
      · exact rings_perform hnotify c action
      · exact .of_eq rfl rfl

theorem rings_callWithin (depth : Nat) (c : Counted) (l : HubListener) :
    c.Rings (callWithin depth c l) := by
  induction depth generalizing c l with
  | zero => exact .of_eq rfl rfl
  | succ depth ih =>
      have hemitted : ∀ event, c.Rings (c.mapHub (·.emit event)) := fun _ => .of_eq rfl rfl
      have hnotify : ∀ c : Counted, c.Rings (c.hub.registry.listeners.foldl (callWithin depth) c) :=
        fun c => .foldl ih _ c
      exact (hemitted _).trans (rings_react hnotify _ _)

theorem rings_callEach (c : Counted) (ls : List HubListener) : c.Rings (c.callEach ls) :=
  .foldl (fun c l => rings_callWithin (c.hub.nesting + 1) c l) ls c

theorem rings_act (c : Counted) (action : Action) : c.Rings (c.act action) :=
  rings_perform (fun c => rings_callEach c _) c action

end Counted

namespace Hub

-- How often a refresh is asked for when these listeners are called.
def requestsOf (hub : Hub) (ls : List HubListener) : Nat :=
  (Counted.callEach { hub } ls).requests

-- How often it is asked for in the course of an action.
def requestsOfAct (hub : Hub) (action : Action) : Nat := (Counted.act { hub } action).requests

theorem doorbell_callEach (hub : Hub) (ls : List HubListener) :
    (hub.callEach ls).doorbell = Doorbell.ring^[hub.requestsOf ls] hub.doorbell := by
  obtain ⟨n, hn, hbell⟩ := Counted.rings_callEach { hub } ls
  have hcount : hub.requestsOf ls = n := by simpa [requestsOf] using hn
  rw [← Counted.hub_callEach { hub } ls, hbell, hcount]

theorem doorbell_act (hub : Hub) (action : Action) :
    (hub.act action).doorbell = Doorbell.ring^[hub.requestsOfAct action] hub.doorbell := by
  obtain ⟨n, hn, hbell⟩ := Counted.rings_act { hub } action
  have hcount : hub.requestsOfAct action = n := by simpa [requestsOfAct] using hn
  rw [← Counted.hub_act { hub } action, hbell, hcount]

end Hub

-- How often a refresh was asked for in the course of a deed.
def Deed.requests : Deed → Nat
  | .calls hub ls => hub.requestsOf ls
  | _ => 0

namespace System

-- How often a refresh is asked for in a move, by whomever.
def requestsIn (s : System) : Move → Nat
  | .act action => s.hub.requestsOfAct action
  | m => ((deedsSince s (s.move m)).map Deed.requests).sum

end System

end CoilHub
