import CoilHub.Proofs.Cache.Revisions
import CoilHub.Proofs.Refresh.Attempts

namespace CoilHub

open CoilHub.System (Obtains)

-- A listener that does nothing.
def Listener.passive {η κ : Type} (l : Listener η κ) : Listener η Unit :=
  { handle := l.handle, interest := l.interest, reaction := () }

namespace Cycle

variable {η κ : Type}

def passive (c : Cycle η κ) : Cycle η Unit where
  listeners := c.listeners.map (·.passive)
  pending := c.pending
  unresolved := c.unresolved
  refreshed := c.refreshed
  result := c.result

theorem passive_plan (ls : List (Listener η κ)) :
    (plan ls).passive = plan (ls.map (·.passive)) := by
  simp [plan, passive, Function.comp_def, Listener.passive]

theorem listenerIf_passive (c : Cycle η κ) (test : Nat → Bool) :
    c.passive.listenerIf test = fun w => (c.listenerIf test w).map (·.passive) := by
  funext w
  simp only [listenerIf, passive, List.getElem?_map]
  cases c.refreshed[w]?.getD false && test (c.unresolved[w]?.getD 0) <;> rfl

theorem settle_passive (c : Cycle η κ) (stored : Option CachedValue) :
    c.passive.settle stored =
      ((c.settle stored).1.passive, (c.settle stored).2.map (·.passive)) := by
  cases hp : c.pending with
  | nil => simp [settle, passive, hp]
  | cons entry rest =>
      have hnext : (c.passive.settle stored).1 = (c.settle stored).1.passive := by
        simp [settle, passive, hp]
      have hcompleted : ∀ {κ : Type} {c : Cycle η κ}, c.pending = entry :: rest →
          (c.settle stored).2 = entry.2.filterMap ((c.settle stored).1.listenerIf (· = 0)) := by
        intro κ c hp
        simp [settle, hp]
      refine Prod.ext hnext ?_
      rw [hcompleted hp, hcompleted (c := c.passive) hp, hnext, listenerIf_passive,
        List.map_filterMap]

theorem waiting_passive (c : Cycle η κ) : c.passive.waiting = c.waiting.map (·.passive) := by
  rw [waiting, waiting, List.map_filterMap, listenerIf_passive]
  simp [passive]

end Cycle

-- Whether the cache stored all values that it was offered.
def Accepted (deeds : List Deed) : Prop := ∀ offer ∈ offersIn deeds, offer.2 = true

theorem Accepted.left {deeds more : List Deed} (h : Accepted (deeds ++ more)) : Accepted deeds := by
  intro offer hmem
  apply h offer
  rw [offersIn_append]
  exact List.mem_append_left _ hmem

-- What others can see of a refresh.
inductive Act
  | reads (a : Address)
  | calls (handle : Handle)
deriving DecidableEq

def callsOf {κ : Type} (ls : List (Listener Handle κ)) : List Act := ls.map fun l => .calls l.handle

@[simp] theorem callsOf_passive {κ : Type} (ls : List (Listener Handle κ)) :
    callsOf (ls.map (·.passive)) = callsOf ls := by
  simp [callsOf, Function.comp_def, Listener.passive]

def actsIn (deeds : List Deed) : List Act :=
  deeds.flatMap fun
    | .asks a => [.reads a]
    | .calls _ ls => callsOf ls
    | _ => []

@[simp] theorem actsIn_append (deeds more : List Deed) :
    actsIn (deeds ++ more) = actsIn deeds ++ actsIn more := List.flatMap_append

-- How far a refresh has got to whose listeners do nothing.
structure Rehearsal where
  cycle : Cycle Handle Unit
  -- attempts at the next address that have failed
  failed : Nat := 0
  acts : List Act := []
  error? : Option HubError := none

namespace Rehearsal

-- The next read.
def next (ρ : Rehearsal) : List Act := (ρ.cycle.pending.take 1).map fun entry => .reads entry.1

def settle (ρ : Rehearsal) (stored : Option CachedValue) : Rehearsal where
  cycle := (ρ.cycle.settle stored).1
  acts := ρ.acts ++ ρ.next ++ callsOf (ρ.cycle.settle stored).2

-- The next read is made, and answered like this.
def answer (limit : Nat) (ρ : Rehearsal) (result : FetchResult CoilValue) : Rehearsal :=
  match ρ.cycle.pending with
  | [] => ρ
  | (a, _) :: _ =>
    match Retry.conclude? (ρ.failed + 1) (limit - (ρ.failed + 1)) result, result with
    | none, _ => { ρ with failed := ρ.failed + 1, acts := ρ.acts ++ ρ.next }
    | some _, .ok value => ρ.settle (some { address := a, value })
    | some _, .error (.notFound _) => ρ.settle none
    | some _, .error e => { ρ with acts := ρ.acts ++ ρ.next, error? := some (.refreshFailed a e) }

def rehearse (limit : Nat) (ls : List (Listener Handle Unit))
    (results : List (FetchResult CoilValue)) : Rehearsal :=
  results.foldl (answer limit) { cycle := Cycle.plan ls }

-- What it has done, with another read at the end if that was not answered.
def soFar (ρ : Rehearsal) (unanswered : Bool) : List Act :=
  ρ.acts ++ if unanswered then ρ.next else []

-- What it has done when it ends here.
def inAll (ρ : Rehearsal) (unanswered : Bool) : List Act :=
  ρ.soFar unanswered ++ if ρ.cycle.pending = [] then [] else callsOf ρ.cycle.waiting

def result (ρ : Rehearsal) : RefreshResult :=
  if ρ.cycle.pending = [] then .ok ρ.cycle.result else .error (ρ.error?.getD .cancelled)

-- Whether there is another read to make.
def IsOpen (ρ : Rehearsal) : Prop := ρ.cycle.pending ≠ [] ∧ ρ.error? = none

theorem result_of_isOpen {ρ : Rehearsal} (h : ρ.IsOpen) : ρ.result = .error .cancelled := by
  rw [result, if_neg h.1, h.2]
  rfl

theorem rehearse_concat (limit : Nat) (ls : List (Listener Handle Unit))
    (results : List (FetchResult CoilValue)) (result : FetchResult CoilValue) :
    rehearse limit ls (results ++ [result]) = (rehearse limit ls results).answer limit result := by
  rw [rehearse, List.foldl_append]
  rfl

section

variable {ρ : Rehearsal} {a : Address} {watchers : List Nat} {rest : List (Address × List Nat)}
  (hp : ρ.cycle.pending = (a, watchers) :: rest)
include hp

theorem next_eq : ρ.next = [.reads a] := by
  rw [next, hp]
  rfl

theorem answer_again {limit : Nat} {result : FetchResult CoilValue}
    (hresult : Retry.conclude? (ρ.failed + 1) (limit - (ρ.failed + 1)) result = none) :
    ρ.answer limit result = { ρ with failed := ρ.failed + 1, acts := ρ.acts ++ ρ.next } := by
  rw [answer, hp]
  dsimp only
  rw [hresult]

-- If the cache takes the value, the answer settles the address as the one of a refresh does.
theorem answer_obtains (limit : Nat) {cache next : Cache} {revision : UInt64}
    {result : FetchResult CoilValue} {offers : List Deed} {stored : Option CachedValue}
    (hobtains : Obtains cache revision a result next offers stored)
    (hoffers : Accepted offers) : ρ.answer limit result = ρ.settle stored := by
  rw [answer, hp]
  cases hobtains with
  | missing => rfl
  | stored => rfl
  | refused => simp [Accepted, offersIn] at hoffers

theorem answer_fails {limit : Nat} {e : FetchError} {reason : RetryError}
    (hresult : Retry.conclude? (ρ.failed + 1) (limit - (ρ.failed + 1)) (.error e) =
      some (.error reason : Except RetryError CoilValue)) (hfound : ∀ b, e ≠ .notFound b) :
    ρ.answer limit (.error e) =
      { ρ with acts := ρ.acts ++ ρ.next, error? := some (.refreshFailed a e) } := by
  rw [answer, hp]
  dsimp only
  rw [hresult]
  cases e with
  | notFound b => exact absurd rfl (hfound b)
  | fatal text => rfl
  | transient text => rfl

end

end Rehearsal

-- Whether the last read of a refresh has not been answered.
def unanswered (deeds : List Deed) : Bool := (hearsIn deeds).length < (asksIn deeds).length

def resultsIn (deeds : List Deed) : List (FetchResult CoilValue) := (hearsIn deeds).map Prod.snd

-- A refresh that is under way has got as far as the rehearsal.
structure Follows (ρ : Rehearsal) (deeds : List Deed) (cycle : HubCycle) (attempt : Nat) :
    Prop where
  cycle : ρ.cycle = cycle.passive
  failed : ρ.failed = attempt - 1
  error? : ρ.error? = none
  asks : (asksIn deeds).length = (hearsIn deeds).length + if attempt = 0 then 0 else 1
  acts : actsIn deeds = ρ.soFar (unanswered deeds)

namespace Follows

variable {ρ : Rehearsal} {deeds : List Deed} {cycle : HubCycle} {attempt : Nat}
  (h : Follows ρ deeds cycle attempt)
include h

theorem unanswered_eq : unanswered deeds = !decide (attempt = 0) := by
  unfold unanswered
  rw [h.asks]
  by_cases hattempt : attempt = 0
  · simp [hattempt]
  · simp [hattempt]

theorem pending_eq : ρ.cycle.pending = cycle.pending := by
  rw [h.cycle]
  rfl

theorem isOpen (hp : cycle.pending ≠ []) : ρ.IsOpen := ⟨h.pending_eq ▸ hp, h.error?⟩

-- While a read is under way, it is the next one of the rehearsal.
theorem acts_reading (hattempt : 1 ≤ attempt) : actsIn deeds = ρ.acts ++ ρ.next := by
  have hopen : unanswered deeds = true := by
    rw [h.unanswered_eq]
    simp only [Bool.not_eq_true', decide_eq_false_iff_not]
    omega
  rw [h.acts, hopen]
  rfl

-- An answer is the one of the read that is under way.
theorem answered (hattempt : 1 ≤ attempt) (last : List Deed) (hasks : asksIn last = [])
    (hhears : (hearsIn last).length = 1) :
    (asksIn (deeds ++ last)).length = (hearsIn (deeds ++ last)).length ∧
      unanswered (deeds ++ last) = false := by
  have hcount := h.asks
  rw [if_neg (by omega)] at hcount
  have hboth : (asksIn (deeds ++ last)).length = (hearsIn (deeds ++ last)).length := by
    rw [asksIn_append, hearsIn_append, hasks, List.append_nil, List.length_append, hhears, hcount]
  refine ⟨hboth, ?_⟩
  unfold unanswered
  rw [hboth]
  exact decide_eq_false (Nat.lt_irrefl _)

theorem settle (hattempt : 1 ≤ attempt) (hub : Hub) {a : Address} {cache next : Cache}
    {revision : UInt64} {result : FetchResult CoilValue} {offers : List Deed}
    {stored : Option CachedValue} (hobtains : Obtains cache revision a result next offers stored) :
    Follows (ρ.settle stored)
      (deeds ++ (.hears a result :: offers ++ [.settles a, .calls hub (cycle.settle stored).2]))
      (cycle.settle stored).1 0 := by
  have hsettle : ρ.cycle.settle stored =
      ((cycle.settle stored).1.passive, (cycle.settle stored).2.map (·.passive)) := by
    rw [h.cycle, Cycle.settle_passive]
  have hnew : actsIn (.hears a result :: offers ++
      [.settles a, .calls hub (cycle.settle stored).2]) = callsOf (cycle.settle stored).2 := by
    cases hobtains <;> simp [actsIn]
  have hacts := h.acts_reading hattempt
  obtain ⟨hasks, hclosed⟩ := h.answered hattempt (.hears a result :: offers ++
    [.settles a, .calls hub (cycle.settle stored).2]) (by cases hobtains <;> rfl)
    (by cases hobtains <;> rfl)
  refine ⟨congrArg Prod.fst hsettle, rfl, rfl, hasks, ?_⟩
  rw [actsIn_append, hacts, hnew, hclosed]
  simp [Rehearsal.soFar, Rehearsal.settle, hsettle]

section

variable {a : Address} {watchers : List Nat} {rest : List (Address × List Nat)}
  (hp : cycle.pending = (a, watchers) :: rest)
include hp

theorem asks_first (hattempt : attempt = 0) (revision : UInt64) :
    Follows ρ (deeds ++ [.reserves revision, .asks a]) cycle 1 := by
  have hcount := h.asks
  have hopen := h.unanswered_eq
  have hnew : unanswered (deeds ++ [.reserves revision, .asks a]) = true := by
    simp [unanswered, asksIn, hearsIn] at hcount ⊢
    omega
  refine ⟨h.cycle, by rw [h.failed, hattempt], h.error?, ?_, ?_⟩
  · rw [hattempt] at hcount
    simpa [asksIn, hearsIn] using hcount
  · rw [actsIn_append, h.acts, hopen, hattempt, hnew]
    simp [Rehearsal.soFar, Rehearsal.next_eq (h.pending_eq.trans hp), actsIn]

theorem asks_again {limit : Nat} (hattempt : 1 ≤ attempt) {result : FetchResult CoilValue}
    (hresult : Retry.conclude? attempt (limit - attempt) result = none) :
    Follows (ρ.answer limit result) (deeds ++ [.hears a result, .asks a]) cycle (attempt + 1) := by
  have hfailed : ρ.failed + 1 = attempt := by
    rw [h.failed]
    omega
  have hacts := h.acts_reading hattempt
  have hcount := h.asks
  have hnext := Rehearsal.next_eq (h.pending_eq.trans hp)
  rw [if_neg (by omega)] at hcount
  rw [Rehearsal.answer_again (h.pending_eq.trans hp) (by rw [hfailed]; exact hresult)]
  have hnew : unanswered (deeds ++ [.hears a result, .asks a]) = true := by
    simp [unanswered, asksIn, hearsIn] at hcount ⊢
    omega
  refine ⟨h.cycle, hfailed, h.error?, ?_, ?_⟩
  · simpa [asksIn, hearsIn] using hcount
  · rw [actsIn_append, hacts, hnew]
    have hsame : ∀ acts, Rehearsal.next { ρ with failed := ρ.failed + 1, acts } = ρ.next :=
      fun _ => rfl
    simp [Rehearsal.soFar, hsame, hnext, actsIn]

end

theorem completed (hp : cycle.pending = []) :
    actsIn deeds = ρ.inAll (unanswered deeds) ∧ ρ.result = .ok cycle.result := by
  have hnone : ρ.cycle.pending = [] := h.pending_eq.trans hp
  rw [Rehearsal.inAll, Rehearsal.result, if_pos hnone, if_pos hnone, List.append_nil, h.cycle]
  exact ⟨h.acts, rfl⟩

-- Nothing but the calls of listeners follows when a refresh is cancelled.
theorem cancelled (hp : cycle.pending ≠ []) (hub : Hub) (last : List Deed)
    (hacts : actsIn last = []) (hasks : asksIn last = []) (hhears : hearsIn last = []) :
    actsIn (deeds ++ (last ++ [.abandons, .calls hub cycle.waiting])) =
        ρ.inAll (unanswered (deeds ++ (last ++ [.abandons, .calls hub cycle.waiting]))) ∧
      ρ.result = .error .cancelled := by
  have hsome : ρ.cycle.pending ≠ [] := h.pending_eq ▸ hp
  have hsame : unanswered (deeds ++ (last ++ [.abandons, .calls hub cycle.waiting])) =
      unanswered deeds := by
    have hasks' : asksIn (deeds ++ (last ++ [.abandons, .calls hub cycle.waiting])) =
        asksIn deeds := by
      rw [asksIn_append, asksIn_append, hasks]
      exact List.append_nil _
    have hhears' : hearsIn (deeds ++ (last ++ [.abandons, .calls hub cycle.waiting])) =
        hearsIn deeds := by
      rw [hearsIn_append, hearsIn_append, hhears]
      exact List.append_nil _
    rw [unanswered, hasks', hhears']
    rfl
  rw [hsame, Rehearsal.inAll, Rehearsal.result, if_neg hsome, if_neg hsome, h.error?, h.cycle,
    Cycle.waiting_passive, callsOf_passive, actsIn_append, actsIn_append, hacts, h.acts]
  exact ⟨by simp [actsIn], rfl⟩

theorem failed_at {a : Address} {watchers : List Nat} {rest : List (Address × List Nat)}
    (hp : cycle.pending = (a, watchers) :: rest) (hattempt : 1 ≤ attempt) {limit : Nat}
    {e : FetchError} {reason : RetryError}
    (hresult : Retry.conclude? attempt (limit - attempt) (.error e) =
      some (.error reason : Except RetryError CoilValue)) (hfound : ∀ b, e ≠ .notFound b)
    (hub : Hub) :
    actsIn (deeds ++ [.hears a (.error e), .abandons, .calls hub cycle.waiting]) =
        (ρ.answer limit (.error e)).inAll
          (unanswered (deeds ++ [.hears a (.error e), .abandons, .calls hub cycle.waiting])) ∧
      (ρ.answer limit (.error e)).result = .error (.refreshFailed a e) := by
  have hfailed : ρ.failed + 1 = attempt := by
    have hcount := h.failed
    omega
  have hsome : ρ.cycle.pending ≠ [] := by
    rw [h.pending_eq, hp]
    exact List.cons_ne_nil _ _
  have hclosed := (h.answered hattempt
    [.hears a (.error e), .abandons, .calls hub cycle.waiting] rfl rfl).2
  rw [Rehearsal.answer_fails (h.pending_eq.trans hp) (by rw [hfailed]; exact hresult) hfound,
    hclosed, Rehearsal.inAll, Rehearsal.result, if_neg hsome, if_neg hsome, h.cycle,
    Cycle.waiting_passive, callsOf_passive, actsIn_append, h.acts_reading hattempt]
  exact ⟨by simp [Rehearsal.soFar, actsIn], rfl⟩

end Follows

theorem resultsIn_append (deeds more : List Deed) :
    resultsIn (deeds ++ more) = resultsIn deeds ++ resultsIn more := by
  simp [resultsIn]

section

variable {a : Address} {cache next : Cache} {revision : UInt64} {result : FetchResult CoilValue}
  {offers : List Deed} {stored : Option CachedValue}
  (hobtains : Obtains cache revision a result next offers stored)
include hobtains

theorem resultsIn_settled (deeds : List Deed) (hub : Hub) (called : List HubListener) :
    resultsIn (deeds ++ (.hears a result :: offers ++ [.settles a, .calls hub called])) =
      resultsIn deeds ++ [result] := by
  rw [resultsIn_append]
  cases hobtains <;> rfl

theorem Accepted.settled {deeds : List Deed} {hub : Hub} {called : List HubListener}
    (h : Accepted (deeds ++ (.hears a result :: offers ++ [.settles a, .calls hub called]))) :
    Accepted offers := by
  intro offer hmem
  apply h offer
  rw [offersIn_append]
  apply List.mem_append_right
  cases hobtains <;> exact hmem

end

-- The induction is on the course of the refresh: the rehearsal makes the same steps.
theorem Going.follows {limit : Nat} (hlimit : 1 ≤ limit) {ls : List HubListener}
    {deeds : List Deed} {stage : Stage} (h : Going limit ls deeds stage) {cycle : HubCycle}
    (hc : stage.cycle? = some cycle) (hoffers : Accepted deeds) :
    Follows (.rehearse limit (ls.map (·.passive)) (resultsIn deeds)) deeds cycle stage.attempt := by
  induction h generalizing cycle with
  | begins hp =>
      cases hc
      exact ⟨(Cycle.passive_plan ls).symm, rfl, rfl, rfl, rfl⟩
  | @asks deeds cycle a watchers rest revision due h hp ih =>
      cases hc
      have hold := ih rfl hoffers.left
      have hresults : resultsIn (deeds ++ [.reserves revision, .asks a]) = resultsIn deeds :=
        (resultsIn_append _ _).trans (List.append_nil _)
      rw [hresults]
      exact hold.asks_first hp rfl revision
  | @asksAgain deeds cycle a watchers rest revision attempt due due' result h hp hresult ih =>
      cases hc
      have hattempt := (h.attempts hlimit rfl).1 ⟨_, _, _, rfl⟩
      have hold := ih rfl hoffers.left
      have hresults : resultsIn (deeds ++ [.hears a result, .asks a]) =
          resultsIn deeds ++ [result] := resultsIn_append _ _
      rw [hresults, Rehearsal.rehearse_concat]
      exact hold.asks_again hp hattempt hresult
  | @settles deeds offers cycle a watchers rest revision attempt due result cache next stored hub h
      hp hrest hobtains ih =>
      cases hc
      have hattempt := (h.attempts hlimit rfl).1 ⟨_, _, _, rfl⟩
      have hold := ih rfl hoffers.left
      have hoffered := hoffers.settled hobtains
      rw [resultsIn_settled hobtains, Rehearsal.rehearse_concat,
        Rehearsal.answer_obtains (hold.pending_eq.trans hp) limit hobtains hoffered]
      exact hold.settle hattempt hub hobtains

-- As long as a refresh is under way the rehearsal has never been at its end.
theorem Going.isOpen {limit : Nat} (hlimit : 1 ≤ limit) {ls : List HubListener}
    {deeds : List Deed} {stage : Stage} (h : Going limit ls deeds stage) (hoffers : Accepted deeds)
    {results : List (FetchResult CoilValue)} (hresults : results <+: resultsIn deeds) :
    (Rehearsal.rehearse limit (ls.map (·.passive)) results).IsOpen := by
  have hnow : ∀ {deeds stage}, Going limit ls deeds stage → Accepted deeds →
      (Rehearsal.rehearse limit (ls.map (·.passive)) (resultsIn deeds)).IsOpen := by
    intro deeds stage h hoffers
    obtain ⟨cycle, hc⟩ := Option.ne_none_iff_exists'.mp h.cycle?_ne_none
    exact (h.follows hlimit hc hoffers).isOpen (h.pending_ne_nil hc)
  induction h with
  | begins hp =>
      rw [List.prefix_nil.mp hresults]
      exact hnow (.begins hp) hoffers
  | @asks deeds cycle a watchers rest revision due h hp ih =>
      have hsame : resultsIn (deeds ++ [.reserves revision, .asks a]) = resultsIn deeds :=
        (resultsIn_append _ _).trans (List.append_nil _)
      exact ih hoffers.left (hsame ▸ hresults)
  | @asksAgain deeds cycle a watchers rest revision attempt due due' result h hp hresult ih =>
      have hconcat : resultsIn (deeds ++ [.hears a result, .asks a]) =
          resultsIn deeds ++ [result] := resultsIn_append _ _
      rcases List.prefix_concat_iff.mp (hconcat ▸ hresults) with heq | hbefore
      · have hagain : Going limit ls _ (.reading cycle revision (attempt + 1) due') :=
          h.asksAgain hp hresult
        rw [heq, ← hconcat]
        exact hnow hagain hoffers
      · exact ih hoffers.left hbefore
  | @settles deeds offers cycle a watchers rest revision attempt due result cache next stored hub h
      hp hrest hobtains ih =>
      have hconcat := resultsIn_settled hobtains deeds hub (cycle.settle stored).2
      rcases List.prefix_concat_iff.mp (hconcat ▸ hresults) with heq | hbefore
      · rw [heq, ← hconcat]
        exact hnow (h.settles hp hrest hobtains) hoffers
      · exact ih hoffers.left hbefore

-- A refresh that has come to its end has got as far as the rehearsal, and the rehearsal goes on
-- just as long.
structure Accords (limit : Nat) (ls : List (Listener Handle Unit)) (deeds : List Deed)
    (result : RefreshResult) : Prop where
  acts : actsIn deeds = (Rehearsal.rehearse limit ls (resultsIn deeds)).inAll (unanswered deeds)
  outcome : result = (Rehearsal.rehearse limit ls (resultsIn deeds)).result
  answered : result ≠ .error .cancelled → unanswered deeds = false
  goesOn : ∀ results, results <+: resultsIn deeds → results ≠ resultsIn deeds →
    (Rehearsal.rehearse limit ls results).IsOpen

theorem Course.accords {limit : Nat} (hlimit : 1 ≤ limit) {ls : List HubListener}
    {deeds : List Deed} {result : RefreshResult} (h : Course limit ls deeds result)
    (hoffers : Accepted deeds) : Accords limit (ls.map (·.passive)) deeds result := by
  cases h with
  | beginsNothing hp =>
      have hfollows : Follows (.rehearse limit (ls.map (·.passive)) []) [] (Cycle.plan ls) 0 :=
        ⟨(Cycle.passive_plan ls).symm, rfl, rfl, rfl, rfl⟩
      obtain ⟨hacts, hresult⟩ := hfollows.completed hp
      exact ⟨hacts, hresult.symm, fun _ => rfl, fun results hbefore hne =>
        absurd (List.prefix_nil.mp hbefore) hne⟩
  | @settlesLast deeds offers cycle a watchers revision attempt due result cache next stored hub h
      hp hobtains =>
      have hattempt := (h.attempts hlimit rfl).1 ⟨_, _, _, rfl⟩
      have hold := h.follows hlimit rfl hoffers.left
      have hlast : (cycle.settle stored).1.pending = [] := by simp [Cycle.settle, hp]
      have hconcat := resultsIn_settled hobtains deeds hub (cycle.settle stored).2
      have hanswer := Rehearsal.answer_obtains (hold.pending_eq.trans hp) limit hobtains
        (hoffers.settled hobtains)
      obtain ⟨hacts, hresult⟩ := (hold.settle hattempt hub hobtains).completed hlast
      rw [← hanswer, ← Rehearsal.rehearse_concat, ← hconcat] at hacts hresult
      refine ⟨hacts, hresult.symm, fun _ => ?_, fun results hbefore hne => ?_⟩
      · exact (hold.answered hattempt _ (by cases hobtains <;> rfl) (by cases hobtains <;> rfl)).2
      · rw [hconcat] at hbefore hne
        exact h.isOpen hlimit hoffers.left ((List.prefix_concat_iff.mp hbefore).resolve_left hne)
  | @withdraws deeds cycle revision hub h =>
      have hold := h.follows hlimit rfl hoffers.left
      have hsame : resultsIn (deeds ++ [.reserves revision, .abandons, .calls hub cycle.waiting]) =
          resultsIn deeds := (resultsIn_append _ _).trans (List.append_nil _)
      obtain ⟨hacts, hresult⟩ := hold.cancelled (h.pending_ne_nil rfl) hub [.reserves revision] rfl
        rfl rfl
      rw [← hsame] at hacts hresult
      exact ⟨hacts, hresult.symm, fun hne => absurd rfl hne, fun results hbefore _ =>
        h.isOpen hlimit hoffers.left (hsame ▸ hbefore)⟩
  | @givesUp deeds cycle revision attempt due hub h =>
      have hold := h.follows hlimit rfl hoffers.left
      have hsame : resultsIn (deeds ++ [.abandons, .calls hub cycle.waiting]) = resultsIn deeds :=
        (resultsIn_append _ _).trans (List.append_nil _)
      obtain ⟨hacts, hresult⟩ := hold.cancelled (h.pending_ne_nil rfl) hub [] rfl rfl rfl
      rw [← hsame] at hacts hresult
      exact ⟨hacts, hresult.symm, fun hne => absurd rfl hne, fun results hbefore _ =>
        h.isOpen hlimit hoffers.left (hsame ▸ hbefore)⟩
  | @fails deeds cycle a watchers rest revision attempt due e hub h hp hreason hfound =>
      have hattempt := (h.attempts hlimit rfl).1 ⟨_, _, _, rfl⟩
      have hold := h.follows hlimit rfl hoffers.left
      obtain ⟨reason, hreason⟩ := hreason
      have hconcat : resultsIn
          (deeds ++ [.hears a (.error e), .abandons, .calls hub cycle.waiting]) =
          resultsIn deeds ++ [.error e] := resultsIn_append _ _
      obtain ⟨hacts, hresult⟩ := hold.failed_at hp hattempt hreason hfound hub
      rw [← Rehearsal.rehearse_concat, ← hconcat] at hacts hresult
      refine ⟨hacts, hresult.symm, fun _ => (hold.answered hattempt _ rfl rfl).2, ?_⟩
      intro results hbefore hne
      rw [hconcat] at hbefore hne
      exact h.isOpen hlimit hoffers.left ((List.prefix_concat_iff.mp hbefore).resolve_left hne)

end CoilHub
