import CoilHub.Proofs.Interleaving.Frame
import Mathlib.Data.List.Basic

namespace CoilHub.Hub

section

variable (Broadcasts : Hub → Hub → Prop)

-- What carrying out an action makes of a hub. `Broadcasts` tells what it is to notify everybody.
inductive Performs (hub : Hub) : Action → Hub → Prop
  | listens {name : String} {interest : List Address} {actions : List (Option Nat × Action)} :
    Performs hub (.listen name interest actions) (hub.listen name interest actions)
  | unlistens {name : String} : Performs hub (.unlisten name) (hub.deregister (.named name))
  | setsValue {a : Address} {value : CoilValue} :
    Performs hub (.setValue a value) (hub.mapPump (·.setValue a value))
  | failsRead {a : Address} {e : FetchError} {times : Nat} :
    Performs hub (.failRead a e times) (hub.mapPump fun p => times.repeat (·.failRead a e) p)
  | failsWrite {a : Address} {e : FetchError} {times : Nat} :
    Performs hub (.failWrite a e times) (hub.mapPump fun p => times.repeat (·.failWrite a e) p)
  | cancels : Performs hub .cancel { hub with cancelled := true }
  | requests : Performs hub .requestRefresh hub.requestRefresh
  | notifies {next : Hub} (h : Broadcasts hub next) : Performs hub .notify next

-- What a listener makes of a hub on its call of that number: the actions that are due are carried out
-- one after another.
inductive WorksOff (count : Nat) : Hub → List (Option Nat × Action) → Hub → Prop
  | done {hub : Hub} : WorksOff count hub [] hub
  | due {hub m next : Hub} {on : Option Nat} {action : Action} {rest : List (Option Nat × Action)}
    (hon : on = none ∨ on = some count) (h : Performs Broadcasts hub action m)
    (hrest : WorksOff count m rest next) : WorksOff count hub ((on, action) :: rest) next
  | skips {hub next : Hub} {other : Nat} {action : Action} {rest : List (Option Nat × Action)}
    (hother : other ≠ count) (hrest : WorksOff count hub rest next) :
    WorksOff count hub ((some other, action) :: rest) next

-- An entity takes over the cached value, if there is one. A list of actions is worked off with the
-- call counted.
inductive Reacts (hub : Hub) : Effect → Hub → Prop
  | shows {index : Nat} {a : Address} {value : CoilValue} (h : hub.cache.get? a = some value) :
    Reacts hub (.display index a)
      { hub with displays := hub.displays.modify index fun d =>
          { value := some value, version := d.version + 1 } }
  | stays {index : Nat} {a : Address} (h : hub.cache.get? a = none) :
    Reacts hub (.display index a) hub
  | works {counter count : Nat} {actions : List (Option Nat × Action)} {next : Hub}
    (hcount : count = hub.counters[counter]?.getD 0 + 1)
    (h : WorksOff Broadcasts count { hub with counters := hub.counters.set counter count } actions
      next) : Reacts hub (.script counter actions) next

-- A listener has been called. The call has been recorded once, with the values that the listener saw,
-- and the reaction of the listener has been carried out.
def Answers (hub : Hub) (l : HubListener) (next : Hub) : Prop :=
  Reacts Broadcasts
    { hub with
      history := .called l.handle (l.reaction.looksAt.map hub.cache.get?) :: hub.history }
    l.reaction.effect next

-- Listeners have been called one after another.
inductive CallsOf : Hub → List HubListener → Hub → Prop
  | nobody {hub : Hub} : CallsOf hub [] hub
  | first {hub m next : Hub} {l : HubListener} {ls : List HubListener}
    (h : Answers Broadcasts hub l m) (hrest : CallsOf m ls next) : CallsOf hub (l :: ls) next

end

-- Everybody who is registered has been called. Broadcasts within broadcasts go down to a depth, at
-- which they reach nobody.
def Broadcasts : Nat → Hub → Hub → Prop
  | 0, hub, next => next = hub
  | depth + 1, hub, next => CallsOf (Broadcasts depth) hub hub.registry.listeners next

-- A listener is called when these are called one after another, and finds the hub in this state. It is
-- one of them, or it is called because one of them notifies everybody.
inductive Finds (l : HubListener) (found : Hub) : Nat → Hub → List HubListener → Prop
  | called {depth : Nat} {hub : Hub} {first rest : List HubListener}
    (h : CallsOf (Broadcasts depth) hub first found) : Finds l found depth hub (first ++ l :: rest)
  | deeper {depth : Nat} {hub m inner : Hub} {first rest : List HubListener} {caller : HubListener}
    {counter count : Nat} {on : Option Nat} {before after : List (Option Nat × Action)}
    (h : CallsOf (Broadcasts (depth + 1)) hub first m)
    (heffect : caller.reaction.effect = .script counter (before ++ (on, .notify) :: after))
    (hcount : count = m.counters[counter]?.getD 0 + 1) (hon : on = none ∨ on = some count)
    (hworks : WorksOff (Broadcasts (depth + 1)) count
      { m with
        history := .called caller.handle (caller.reaction.looksAt.map m.cache.get?) :: m.history
        counters := m.counters.set counter count } before inner)
    (hfinds : Finds l found depth inner inner.registry.listeners) :
    Finds l found (depth + 1) hub (first ++ caller :: rest)

-- The same with the depth of the hub.
def Calls (hub : Hub) (ls : List HubListener) (next : Hub) : Prop :=
  CallsOf (Broadcasts hub.nesting) hub ls next

section

variable {Broadcasts : Hub → Hub → Prop} {notify : Hub → Hub}
  (hnotify : ∀ hub next, Broadcasts hub next ↔ next = notify hub) {hub next : Hub}
include hnotify

theorem performs_iff {action : Action} :
    Performs Broadcasts hub action next ↔ next = perform notify hub action := by
  constructor
  · intro h
    cases h with
    | notifies h => exact (hnotify hub next).mp h
    | _ => rfl
  · rintro rfl
    cases action with
    | listen name interest actions => exact .listens
    | unlisten name => exact .unlistens
    | setValue a value => exact .setsValue
    | failRead a e times => exact .failsRead
    | failWrite a e times => exact .failsWrite
    | cancel => exact .cancels
    | requestRefresh => exact .requests
    | notify => exact .notifies ((hnotify hub _).mpr rfl)

theorem worksOff_iff {count : Nat} {actions : List (Option Nat × Action)} :
    WorksOff Broadcasts count hub actions next ↔
      next = actions.foldl (fun hub entry =>
        if entry.1.all (· = count) then perform notify hub entry.2 else hub) hub := by
  constructor
  · intro h
    induction h with
    | done => rfl
    | @due hub m next on action rest hon h hrest ih =>
        have hall : on.all (· = count) = true := by
          rcases hon with rfl | rfl <;> simp
        rw [List.foldl_cons, if_pos hall, ← (performs_iff hnotify).mp h]
        exact ih
    | skips hother hrest ih =>
        rw [List.foldl_cons, if_neg (by simpa using hother)]
        exact ih
  · rintro rfl
    induction actions generalizing hub with
    | nil => exact .done
    | cons entry rest ih =>
        obtain ⟨on, action⟩ := entry
        rw [List.foldl_cons]
        by_cases hall : on.all (· = count) = true
        · rw [if_pos hall]
          have hon : on = none ∨ on = some count := by
            cases on with
            | none => exact .inl rfl
            | some n => exact .inr (by simpa using hall)
          exact .due hon ((performs_iff hnotify).mpr rfl) ih
        · rw [if_neg hall]
          cases on with
          | none => exact absurd rfl hall
          | some n => exact .skips (by simpa using hall) ih

theorem reacts_iff {effect : Effect} :
    Reacts Broadcasts hub effect next ↔ next = react notify hub effect := by
  constructor
  · intro h
    cases h with
    | shows h => simp [react, refreshDisplay, h]
    | stays h => simp [react, refreshDisplay, h]
    | works hcount h =>
        subst hcount
        exact (worksOff_iff hnotify).mp h
  · rintro rfl
    cases effect with
    | display index a =>
        rw [react, refreshDisplay]
        cases hvalue : hub.cache.get? a with
        | none => exact .stays hvalue
        | some value => exact .shows hvalue
    | script counter actions => exact .works rfl ((worksOff_iff hnotify).mpr rfl)

end

section

variable {hub next : Hub}

-- Calling listeners one by one is a matter of calling any one of them.
theorem callsOf_iff {Broadcasts : Hub → Hub → Prop} {call : Hub → HubListener → Hub}
    (hcall : ∀ hub l next, Answers Broadcasts hub l next ↔ next = call hub l)
    {ls : List HubListener} : CallsOf Broadcasts hub ls next ↔ next = ls.foldl call hub := by
  constructor
  · intro h
    induction h with
    | nobody => rfl
    | first h hrest ih =>
        rw [List.foldl_cons, ← (hcall _ _ _).mp h]
        exact ih
  · rintro rfl
    induction ls generalizing hub with
    | nil => exact .nobody
    | cons l rest ih => exact .first ((hcall _ _ _).mpr rfl) ih

-- The induction is on how deep listeners may still notify one another.
theorem broadcasts_iff (depth : Nat) (hub next : Hub) :
    Broadcasts depth hub next ↔ next = hub.registry.listeners.foldl (callWithin depth) hub := by
  induction depth generalizing hub next with
  | zero =>
      have hnobody : hub.registry.listeners.foldl (callWithin 0) hub = hub :=
        List.foldl_fixed' (fun _ => rfl) _
      rw [hnobody]
      exact Iff.rfl
  | succ depth ih => exact callsOf_iff fun hub l next => reacts_iff ih

theorem answers_iff (depth : Nat) (hub : Hub) (l : HubListener) (next : Hub) :
    Answers (Broadcasts depth) hub l next ↔ next = callWithin (depth + 1) hub l :=
  reacts_iff (broadcasts_iff depth)

-- Listeners do not change the depth, so that it is the same for all of them.
theorem calls_iff {ls : List HubListener} : hub.Calls ls next ↔ next = hub.callEach ls := by
  have hdepth : ∀ (ls : List HubListener) (m : Hub), m.nesting = hub.nesting →
      ls.foldl (callWithin (hub.nesting + 1)) m = ls.foldl call m := by
    intro ls
    induction ls with
    | nil => exact fun m _ => rfl
    | cons l rest ih =>
        intro m hm
        have hcall : callWithin (hub.nesting + 1) m l = m.call l := by rw [call, hm]
        rw [List.foldl_cons, List.foldl_cons, hcall]
        exact ih _ ((m.kept_call l).nesting.trans hm)
  rw [Calls, callsOf_iff (answers_iff hub.nesting), hdepth ls hub rfl]
  exact Iff.rfl

theorem kept_callsOf {depth : Nat} {ls : List HubListener}
    (h : CallsOf (Broadcasts depth) hub ls next) : hub.Kept next := by
  rw [(callsOf_iff (answers_iff depth)).mp h]
  exact kept_foldl (kept_callWithin (depth + 1)) ls hub

theorem kept_worksOff {depth count : Nat} {actions : List (Option Nat × Action)}
    (h : WorksOff (Broadcasts depth) count hub actions next) : hub.Kept next := by
  rw [(worksOff_iff (broadcasts_iff depth)).mp h]
  refine kept_foldl ?_ actions hub
  intro hub entry
  split
  · exact kept_perform (fun hub => kept_foldl (kept_callWithin depth) _ hub) hub entry.2
  · exact .refl hub

-- The induction is on how deep in the calls the listener is.
theorem Finds.kept {depth : Nat} {l : HubListener} {ls : List HubListener} {found : Hub}
    (h : Finds l found depth hub ls) : hub.Kept found := by
  induction h with
  | called h => exact kept_callsOf h
  | deeper h heffect hcount hon hworks hfinds ih =>
      refine (kept_callsOf h).trans (Kept.trans ?_ ((kept_worksOff hworks).trans ih))
      exact .of_eq rfl rfl rfl rfl rfl rfl rfl

theorem exists_finds (hub : Hub) (depth : Nat) {l : HubListener} {ls : List HubListener} (hl : l ∈ ls) :
    ∃ found, Finds l found depth hub ls := by
  obtain ⟨first, rest, rfl⟩ := List.append_of_mem hl
  exact ⟨_, .called ((callsOf_iff (answers_iff depth)).mpr rfl)⟩

theorem calls_callEach (hub : Hub) (ls : List HubListener) : hub.Calls ls (hub.callEach ls) :=
  calls_iff.mpr rfl

end

end CoilHub.Hub
