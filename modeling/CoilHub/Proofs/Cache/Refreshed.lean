import CoilHub.Proofs.Cache.Agreement
import CoilHub.Proofs.Interleaving.Enactment
import CoilHub.Proofs.Interleaving.Service

namespace CoilHub

def Deed.isReturn : Deed → Bool
  | .returns _ => true
  | _ => false

def Deed.isReceipt : Deed → Bool
  | .receives _ _ => true
  | _ => false

theorem Cycle.result_settle {η κ : Type} {c : Cycle η κ} {a : Address} {watchers : List Nat}
    {rest : List (Address × List Nat)} (hp : c.pending = (a, watchers) :: rest)
    (stored : Option CachedValue) (b : Address) :
    (c.settle stored).1.result.get? b = if b = a then stored.or (c.result.get? b) else
      c.result.get? b := by
  unfold settle
  rw [hp]
  cases stored with
  | none => simp
  | some cached => simp [AddressMap.get?_insert]

namespace System

section

variable {cache next : Cache} {revision : UInt64} {a b : Address} {result : FetchResult CoilValue}
  {offers : List Deed} {stored : Option CachedValue}
  (h : Obtains cache revision a result next offers stored)
include h

theorem Obtains.entries_of_ne (hne : b ≠ a) : next.entries.get? b = cache.entries.get? b := by
  cases h with
  | missing => rfl
  | refused => rfl
  | @stored value next hstore =>
      rw [Cache.entries_of_store? hstore, AddressMap.get?_insert, if_neg hne]

theorem Obtains.entries_of_read
    (hnewer : ∀ e, cache.entries.get? a = some e → e.revision < revision) {value : CoilValue}
    (hread : result = .ok value) :
    next.entries.get? a = some { revision, address := a, value } ∧
      stored = some { address := a, value } := by
  cases h with
  | missing => cases hread
  | refused hstore =>
      rw [Cache.store?_of_newer _ hnewer] at hstore
      cases hstore
  | stored hstore =>
      obtain rfl := Except.ok.inj hread
      rw [Cache.store?_of_newer _ hnewer] at hstore
      obtain rfl := Option.some.inj hstore
      exact ⟨by rw [AddressMap.get?_insert, if_pos rfl], rfl⟩

end

variable {s t t' : System} {id : TaskId} {own more : List Deed}

-- What is cached after a task did this, if nobody else has stored anything since the first state:
-- whatever it has read last, and whatever was cached there before where it has read nothing.
structure Caches (s t : System) (own : List Deed) : Prop where
  unread : ∀ a, answersIn own a = [] →
    t.hub.cache.entries.get? a = s.hub.cache.entries.get? a
  read : (revisionsIn t.log).length < 2 ^ 64 → ∀ a value, (answersIn own a).getLast? = some value →
    ∃ revision ∈ revisionsIn own,
      t.hub.cache.entries.get? a = some { revision, address := a, value }

-- What a refresh has in hand that did this: the revision of its call of the pump, and for each
-- address what it has read there last.
structure Collects (t : System) (own : List Deed) (stage : Stage) (cycle : HubCycle) : Prop where
  atCycle : stage.cycle? = some cycle
  call : ∀ revision, stage.revision? = some revision → revision ∈ revisionsIn own
  result : (revisionsIn t.log).length < 2 ^ 64 → ∀ a, cycle.result.get? a =
    (answersIn own a).getLast?.map fun value => { address := a, value }

-- A refresh has had the cycle lock since the first state, and has done this since then. It is not
-- at its end.
structure Refreshing (s t : System) (id : TaskId) (own : List Deed) : Prop where
  deeds : t.deeds id = s.deeds id ++ own
  going : ∀ result, .returns result ∉ own
  holder : t.cycleLock.holder = some id
  caches : Caches s t own
  place : t.stage? id = some .awaitingCycle ∧ own = [] ∨
    ∃ stage cycle, t.stage? id = some stage ∧ Collects t own stage cycle

-- A refresh that did this has come to its end.
structure Refreshed (s t : System) (own : List Deed) : Prop extends Caches s t own where
  -- all that was read is returned, as it is cached
  returned : (revisionsIn t.log).length < 2 ^ 64 → ∀ values, .returns (.ok values) ∈ own →
    ∀ a, (values.contains a = true ↔ answersIn own a ≠ []) ∧
      ∀ cached, values.get? a = some cached →
        cached.address = a ∧ t.hub.cache.get? a = some cached.value

-- What a task did from one state to a later one.
def doneSince (s t : System) (id : TaskId) : List Deed := (t.deeds id).drop (s.deeds id).length

theorem doneSince_of_deeds_eq (h : t.deeds id = s.deeds id ++ own) : doneSince s t id = own := by
  unfold doneSince
  rw [h, List.drop_left]

theorem doneSince_cons (s : System) (id : TaskId) (m : Move) (moves : List Move) :
    doneSince s (s.play (m :: moves)) id =
      doneSince s (s.move m) id ++ doneSince (s.move m) ((s.move m).play moves) id := by
  have hfirst := deeds_move s m id
  have hlater := deeds_play (s.move m) moves id
  have hboth : (s.play (m :: moves)).deeds id = _ := deeds_play s (m :: moves) id
  rw [doneSince_of_deeds_eq hboth, doneSince_of_deeds_eq hfirst, doneSince_of_deeds_eq hlater, turns]
  cases m.isTurnOf id <;> simp

theorem Caches.extended (h : Caches s t own) (hcache : t'.hub.cache.entries = t.hub.cache.entries)
    (hlog : ∃ deeds, t'.log = t.log ++ deeds) (hmore : ∀ a, answersIn more a = []) :
    Caches s t' (own ++ more) where
  unread := by
    intro a ha
    rw [answersIn_append, hmore, List.append_nil] at ha
    rw [hcache]
    exact h.unread a ha
  read := by
    intro hcount a value ha
    rw [answersIn_append, hmore, List.append_nil] at ha
    obtain ⟨revision, hmem, hentry⟩ := h.read (count_before hlog hcount) a value ha
    rw [hcache, revisionsIn_append]
    exact ⟨revision, List.mem_append_left _ hmem, hentry⟩

theorem Caches.turned (h : Caches s t own) {next : Stage} {cycleLock transport : Lock}
    {cache : Cache} {success : Bool}
    (ht : Turned id t next cycleLock transport cache success more t')
    (hcache : cache.entries = t.hub.cache.entries) (hmore : ∀ a, answersIn more a = []) :
    Caches s t' (own ++ more) := by
  have hentries : t'.hub.cache.entries = t.hub.cache.entries := by
    rw [ht.cache_eq]
    exact hcache
  exact h.extended hentries ⟨more, ht.log_eq⟩ hmore

section

variable {cycle : HubCycle} {a : Address} {watchers : List Nat} {rest : List (Address × List Nat)}
  {revision : UInt64} {attempt due : Nat} {result : FetchResult CoilValue} {cache : Cache}
  {offers last : List Deed} {stored : Option CachedValue}

-- An answer that settles an address.
theorem Caches.settled (h : Caches s t own) (ht : t.Reachable)
    (hst : t.stage? id = some (.reading cycle revision attempt due))
    (hmem : revision ∈ revisionsIn own)
    (hobtains : Obtains t.hub.cache revision a result cache offers stored)
    (hcache : t'.hub.cache = cache) (hlog : ∃ deeds, t'.log = t.log ++ deeds)
    (hlast : ∀ b, answersIn last b = []) :
    Caches s t' (own ++ (.hears a result :: offers ++ last)) := by
  have hanswers := fun b => answersIn_hears hobtains b (hlast b)
  cases result with
  | error e =>
      have hsame : t'.hub.cache.entries = t.hub.cache.entries := by
        rw [hcache]
        cases hobtains
        rfl
      refine h.extended hsame hlog fun b => ?_
      rw [hanswers]
      split <;> rfl
  | ok value =>
      simp only [Except.toOption, Option.toList_some] at hanswers
      have hother : ∀ b, a ≠ b → answersIn (own ++ (.hears a (.ok value) :: offers ++ last)) b =
          answersIn own b ∧ t'.hub.cache.entries.get? b = t.hub.cache.entries.get? b := by
        intro b hne
        rw [answersIn_append, hanswers, if_neg hne, List.append_nil, hcache]
        exact ⟨rfl, hobtains.entries_of_ne (Ne.symm hne)⟩
      refine ⟨fun b hb => ?_, fun hcount b last' hb => ?_⟩
      · have hne : a ≠ b := by
          rintro rfl
          rw [answersIn_append, hanswers] at hb
          simp at hb
        rw [(hother b hne).2]
        exact h.unread b ((hother b hne).1 ▸ hb)
      · have hbefore := count_before hlog hcount
        rw [revisionsIn_append]
        by_cases hab : a = b
        · subst hab
          rw [answersIn_append, hanswers, if_pos rfl, List.getLast?_concat] at hb
          obtain rfl := Option.some.inj hb
          rw [hcache]
          exact ⟨revision, List.mem_append_left _ hmem, (hobtains.entries_of_read
            (fun e he => ht.newer hbefore hst rfl he) rfl).1⟩
        · rw [(hother b hab).1] at hb
          rw [(hother b hab).2]
          obtain ⟨earlier, hearlier, hentry⟩ := h.read hbefore b last' hb
          exact ⟨earlier, List.mem_append_left _ hearlier, hentry⟩

-- The map of the cycle gains what is cached.
theorem result_settled (ht : t.Reachable) (hcount : (revisionsIn t.log).length < 2 ^ 64)
    (hst : t.stage? id = some (.reading cycle revision attempt due))
    (hp : cycle.pending = (a, watchers) :: rest)
    (hold : ∀ b, cycle.result.get? b =
      (answersIn own b).getLast?.map fun value => { address := b, value })
    (hobtains : Obtains t.hub.cache revision a result cache offers stored)
    (hlast : ∀ b, answersIn last b = []) (b : Address) :
    (cycle.settle stored).1.result.get? b =
      (answersIn (own ++ (.hears a result :: offers ++ last)) b).getLast?.map
        fun value => { address := b, value } := by
  rw [Cycle.result_settle hp, hold, answersIn_append, answersIn_hears hobtains b (hlast b)]
  cases result with
  | error e =>
      obtain rfl : stored = none := by
        cases hobtains
        rfl
      simp [Except.toOption]
  | ok value =>
      have hstored := (hobtains.entries_of_read (fun e he => ht.newer hcount hst rfl he) rfl).2
      by_cases hab : a = b
      · subst hab
        simp [hstored, Except.toOption]
      · simp [hab, Ne.symm hab]

end

-- Without the cycle lock a task can ask for it at most, and caches nothing but what a write has
-- brought.
theorem Turn.without_cycle (ht : Turn id t t') (ho : t.Orderly)
    (hl : t.cycleLock.holder ≠ some id) :
    (t'.cycleLock = t.cycleLock ∨ t'.cycleLock = t.cycleLock.request id) ∧
      (t'.hub.cache.entries = t.hub.cache.entries ∨
        ∃ a value, .receives a (.ok value) ∈ deedsSince t t') := by
  have hkept : ∀ {cache : Cache}, t'.hub.cache = cache → cache.entries = t.hub.cache.entries →
      t'.hub.cache.entries = t.hub.cache.entries ∨
        ∃ a value, .receives a (.ok value) ∈ deedsSince t t' := by
    rintro _ rfl hentries
    exact .inl hentries
  cases ht with
  | stays hs _ => exact hs ▸ ⟨.inl rfl, .inl rfl⟩
  | queues hjob hr hst hfrom h => exact ⟨.inr h.cycleLock, hkept h.cache_eq rfl⟩
  | queuesWrite hjob hst hc h => exact ⟨.inl h.cycleLock, hkept h.cache_eq rfl⟩
  | declinesWrite hjob hst hc h => exact ⟨.inl h.cycleLock, hkept h.cache_eq rfl⟩
  | rests hjob hw hst hfrom h => exact ⟨.inl h.cycleLock, hkept h.cache_eq rfl⟩
  | ends hjob hother hst hfrom h => exact ⟨.inl h.cycleLock, hkept h.cache_eq rfl⟩
  | declines hjob hst hl' hc h => exact absurd hl' hl
  | beginsNothing hjob hst hl' hc hp h => exact absurd hl' hl
  | begins hst hl' hc hp h => exact absurd hl' hl
  | asks hst hp hl' hc h => exact absurd (ho.holder_of_awaitingTransport hst) hl
  | withdraws hjob hst hp hl' hc hhub h => exact absurd (ho.holder_of_awaitingTransport hst) hl
  | asksAgain hst hp hc hresult h => exact absurd (ho.holder_of_reading hst).1 hl
  | settles hst hp hrest hc hobtains hhub h => exact absurd (ho.holder_of_reading hst).1 hl
  | settlesLast hjob hst hp hc hobtains hhub h => exact absurd (ho.holder_of_reading hst).1 hl
  | givesUp hjob hst hp hc hhub h => exact absurd (ho.holder_of_reading hst).1 hl
  | fails hjob hst hp hc hresult hfound hhub hlast h =>
      exact absurd (ho.holder_of_reading hst).1 hl
  | sends hst hl' h => exact ⟨.inl h.cycleLock, hkept h.cache_eq rfl⟩
  | refused hst h => exact ⟨.inl h.cycleLock, hkept h.cache_eq rfl⟩
  | @acknowledged a value ack revision hadData cache offers stored hub hst hobtains hhub h =>
      refine ⟨.inl h.cycleLock, .inr ⟨a, ack, ?_⟩⟩
      rw [deedsSince_of_log_eq h.log_eq]
      exact List.mem_cons_self

namespace Refreshing

variable (h : Refreshing s t id own)
include h

theorem at_stage {stage : Stage} (hst : t.stage? id = some stage) :
    stage = .awaitingCycle ∧ own = [] ∨ ∃ cycle, Collects t own stage cycle := by
  rcases h.place with ⟨hawaiting, hown⟩ | ⟨stage', cycle, hstage, hcollects⟩
  · rw [hst] at hawaiting
    exact .inl ⟨Option.some.inj hawaiting, hown⟩
  · rw [hst] at hstage
    obtain rfl := Option.some.inj hstage
    exact .inr ⟨cycle, hcollects⟩

theorem own_eq_nil (hst : t.stage? id = some .awaitingCycle) : own = [] := by
  rcases h.at_stage hst with ⟨-, hown⟩ | ⟨cycle, hcollects⟩
  · exact hown
  · cases hcollects.atCycle

theorem collects {stage : Stage} {cycle : HubCycle} (hst : t.stage? id = some stage)
    (hcycle : stage.cycle? = some cycle) : Collects t own stage cycle := by
  rcases h.at_stage hst with ⟨rfl, -⟩ | ⟨cycle', hcollects⟩
  · cases hcycle
  · have heq := hcollects.atCycle
    rw [hcycle] at heq
    obtain rfl := Option.some.inj heq
    exact hcollects

theorem no_other {stage : Stage} (hst : t.stage? id = some stage) (hstage : stage ≠ .awaitingCycle)
    (hcycle : stage.cycle? = none) : False := by
  rcases h.at_stage hst with ⟨hawaiting, -⟩ | ⟨cycle, hcollects⟩
  · exact hstage hawaiting
  · rw [hcollects.atCycle] at hcycle
    cases hcycle

-- A step within the refresh.
theorem goes_on {next : Stage} {transport : Lock} {cache : Cache} {success : Bool}
    {cycle : HubCycle} (ht : Turned id t next t.cycleLock transport cache success more t')
    (hcaches : Caches s t' (own ++ more)) (hgoing : ∀ result, .returns result ∉ more)
    (hcollects : Collects t' (own ++ more) next cycle) : Refreshing s t' id (own ++ more) where
  deeds := by rw [ht.deeds_self, h.deeds, List.append_assoc]
  going := by
    intro result hmem
    rcases List.mem_append.mp hmem with hold | hnew
    · exact h.going result hold
    · exact hgoing result hnew
  holder := by
    rw [ht.cycleLock]
    exact h.holder
  caches := hcaches
  place := .inr ⟨next, cycle, ht.stage, hcollects⟩

-- A refresh that does not succeed returns no map.
theorem fails (hcaches : Caches s t' (own ++ more))
    (hmore : ∀ values, .returns (.ok values) ∉ more) : Refreshed s t' (own ++ more) where
  toCaches := hcaches
  returned := by
    intro _ values hmem
    rcases List.mem_append.mp hmem with hold | hnew
    · exact absurd hold (h.going _)
    · exact absurd hnew (hmore values)

theorem succeeds (values : AddressMap CachedValue) (hcaches : Caches s t' (own ++ more))
    (hmore : ∀ result, .returns result ∈ more → result = .ok values)
    (hvalues : (revisionsIn t'.log).length < 2 ^ 64 → ∀ a, values.get? a =
      (answersIn (own ++ more) a).getLast?.map fun value => { address := a, value }) :
    Refreshed s t' (own ++ more) where
  toCaches := hcaches
  returned := by
    intro hcount values' hmem a
    have hsame : values' = values := by
      rcases List.mem_append.mp hmem with hold | hnew
      · exact absurd hold (h.going _)
      · exact Except.ok.inj (hmore _ hnew)
    subst hsame
    have hvalue := hvalues hcount a
    constructor
    · rw [AddressMap.contains, hvalue, Option.isSome_map, List.getLast?_isSome]
    · intro cached hcached
      rw [hvalue] at hcached
      obtain ⟨value, hlast, rfl⟩ := Option.map_eq_some_iff.mp hcached
      obtain ⟨revision, -, hentry⟩ := hcaches.read hcount a value hlast
      refine ⟨rfl, ?_⟩
      rw [Cache.get?, hentry]
      rfl

-- What a turn of the task itself makes of it.
theorem turn (ht : t.Reachable) (hturn : Turn id t t') :
    ∃ more, t'.deeds id = t.deeds id ++ more ∧
      (Refreshing s t' id (own ++ more) ∨
        (∃ result, .returns result ∈ more) ∧ Refreshed s t' (own ++ more)) := by
  have hlog := hturn.log_eq
  cases hturn with
  | stays hs _ =>
      subst hs
      exact ⟨[], (List.append_nil _).symm, .inl (by rwa [List.append_nil])⟩
  | queues hjob hr hst hfrom h' =>
      rcases hfrom with rfl | ⟨rfl, -⟩
      · exact (h.no_other hst nofun rfl).elim
      · exact (h.no_other hst nofun rfl).elim
  | queuesWrite hjob hst hc h' => exact (h.no_other hst nofun rfl).elim
  | declinesWrite hjob hst hc h' => exact (h.no_other hst nofun rfl).elim
  | rests hjob hw hst hfrom h' =>
      rcases hfrom with rfl | ⟨rfl, -⟩
      · exact (h.no_other hst nofun rfl).elim
      · exact (h.no_other hst nofun rfl).elim
  | ends hjob hother hst hfrom h' =>
      rcases hfrom with rfl | rfl
      · exact (h.no_other hst nofun rfl).elim
      · exact (h.no_other hst nofun rfl).elim
  | declines hjob hst hl hc h' =>
      have hcaches := h.caches.turned h' rfl fun _ => rfl
      exact ⟨_, h'.deeds_self, .inr ⟨⟨_, List.mem_singleton_self _⟩, h.fails hcaches (by simp)⟩⟩
  | beginsNothing hjob hst hl hc hp h' =>
      have hcaches := h.caches.turned h' rfl fun _ => rfl
      refine ⟨_, h'.deeds_self, .inr ⟨⟨.ok .empty, by simp⟩, ?_⟩⟩
      refine h.succeeds .empty hcaches (by simp) fun _ a => ?_
      rw [h.own_eq_nil hst]
      rfl
  | begins hst hl hc hp h' =>
      have hcaches := h.caches.turned h' rfl fun _ => rfl
      refine ⟨_, h'.deeds_self, .inl (h.goes_on h' hcaches (by simp) ⟨rfl, nofun, fun _ a => ?_⟩)⟩
      rw [h.own_eq_nil hst]
      rfl
  | asks hst hp hl hc h' =>
      have hcollects := h.collects hst rfl
      have hcaches := h.caches.turned h' rfl fun _ => rfl
      refine ⟨_, h'.deeds_self, .inl (h.goes_on h' hcaches (by simp) ⟨rfl, ?_, ?_⟩)⟩
      · rintro revision hr
        obtain rfl := Option.some.inj hr
        rw [revisionsIn_append]
        exact List.mem_append_right _ List.mem_cons_self
      · intro hcount a
        rw [hcollects.result (count_before hlog hcount) a, answersIn_append]
        exact congrArg _ (congrArg _ (List.append_nil _).symm)
  | withdraws hjob hst hp hl hc hhub h' =>
      have hcaches := h.caches.turned h' rfl fun _ => rfl
      exact ⟨_, h'.deeds_self, .inr ⟨⟨.error .cancelled, by simp⟩, h.fails hcaches (by simp)⟩⟩
  | asksAgain hst hp hc hresult h' =>
      obtain ⟨-, text, rfl⟩ := transient_of_conclude? hresult
      have hcollects := h.collects hst rfl
      have hcaches := h.caches.turned h' rfl fun _ => rfl
      refine ⟨_, h'.deeds_self, .inl (h.goes_on h' hcaches (by simp) ⟨rfl, ?_, ?_⟩)⟩
      · intro revision hr
        rw [revisionsIn_append]
        exact List.mem_append_left _ (hcollects.call revision hr)
      · intro hcount a
        rw [hcollects.result (count_before hlog hcount) a, answersIn_append]
        exact congrArg _ (congrArg _ (List.append_nil _).symm)
  | @settles cycle a watchers rest revision attempt due result cache offers stored hub hst hp hrest
      hc hobtains hhub h' =>
      have hcollects := h.collects hst rfl
      have hmem := hcollects.call revision rfl
      have hlast : ∀ b, answersIn [.settles a, .calls hub (cycle.settle stored).2] b = [] :=
        fun _ => rfl
      have hcaches := h.caches.settled ht hst hmem hobtains h'.cache_eq hlog hlast
      have hgoing : ∀ result', Deed.returns result' ∉ Deed.hears a result :: offers ++
          [.settles a, .calls hub (cycle.settle stored).2] := by
        cases hobtains <;> simp
      refine ⟨_, h'.deeds_self, .inl (h.goes_on h' hcaches hgoing ⟨rfl, nofun, ?_⟩)⟩
      intro hcount
      have hbefore := count_before hlog hcount
      exact result_settled ht hbefore hst hp (hcollects.result hbefore) hobtains hlast
  | @settlesLast job cycle a watchers revision attempt due result cache offers stored hub hjob hst
      hp hc hobtains hhub h' =>
      have hcollects := h.collects hst rfl
      have hmem := hcollects.call revision rfl
      have hlast : ∀ b, answersIn [.settles a, .calls hub (cycle.settle stored).2,
          .returns (.ok (cycle.settle stored).1.result)] b = [] := fun _ => rfl
      have hcaches := h.caches.settled ht hst hmem hobtains h'.cache_eq hlog hlast
      refine ⟨_, h'.deeds_self, .inr ⟨⟨.ok (cycle.settle stored).1.result, by simp⟩, ?_⟩⟩
      refine h.succeeds (cycle.settle stored).1.result hcaches ?_ fun hcount => ?_
      · cases hobtains <;> simp
      · have hbefore := count_before hlog hcount
        exact result_settled ht hbefore hst hp (hcollects.result hbefore) hobtains hlast
  | givesUp hjob hst hp hc hhub h' =>
      have hcaches := h.caches.turned h' rfl fun _ => rfl
      exact ⟨_, h'.deeds_self, .inr ⟨⟨.error .cancelled, by simp⟩, h.fails hcaches (by simp)⟩⟩
  | @fails job cycle a watchers rest revision attempt due e hub last hjob hst hp hc hresult hfound
      hhub hlast h' =>
      have hcaches := h.caches.turned h' rfl fun b => by
        rcases toldAfter_calls job (.error (.refreshFailed a e)) last with htold | ⟨told, ls, htold⟩
        · rw [htold]
          rfl
        · rw [htold]
          rfl
      refine ⟨_, h'.deeds_self, .inr ⟨⟨.error (.refreshFailed a e), by simp⟩, h.fails hcaches ?_⟩⟩
      rcases toldAfter_calls job (.error (.refreshFailed a e)) last with htold | ⟨told, ls, htold⟩
      · simp [htold]
      · simp [htold]
  | sends hst hl h' => exact (h.no_other hst nofun rfl).elim
  | refused hst h' => exact (h.no_other hst nofun rfl).elim
  | acknowledged hst hobtains hhub h' => exact (h.no_other hst nofun rfl).elim

-- What anybody else makes of it who does not end a write.
theorem meanwhile (ht : t.Reachable) {m : Move} (hm : m ≠ .step id)
    (hwrites : ∀ a value, .receives a (.ok value) ∉ deedsSince t (t.move m)) :
    Refreshing s (t.move m) id own := by
  have hlog := log_move t m
  obtain ⟨hentries, hl⟩ : (t.move m).hub.cache.entries = t.hub.cache.entries ∧
      (t.move m).cycleLock.holder = some id := by
    rcases move_cases t m with ⟨j, rfl, hturn⟩ | ⟨-, haside⟩
    · have hj : t.cycleLock.holder ≠ some j := by
        rw [h.holder]
        rintro heq
        exact hm (by rw [Option.some.inj heq])
      obtain ⟨hlock, hsame | ⟨a, value, hmem⟩⟩ := hturn.without_cycle ht.orderly hj
      · refine ⟨hsame, ?_⟩
        rcases hlock with hlock | hlock
        · rw [hlock, h.holder]
        · rw [hlock, Lock.request, h.holder]
      · exact absurd hmem (hwrites a value)
    · exact ⟨by rw [haside.cache], by rw [haside.cycleLock, h.holder]⟩
  have hcaches : Caches s (t.move m) own := by
    have hmore : Caches s (t.move m) (own ++ []) :=
      h.caches.extended hentries hlog fun _ => rfl
    rwa [List.append_nil] at hmore
  have hstill : ∀ stage, t.stage? id = some stage → stage.wantsCycle = true →
      (t.move m).stage? id = some stage ∧ (t.move m).deeds id = t.deeds id := by
    intro stage hst hwants
    obtain ⟨job, hjob⟩ := job?_of_stage? hst
    exact still_move hjob (not_drift_of_wants ht.orderly hjob hst (.inl hwants)) hst
      fun heq => absurd heq hm
  rcases h.place with ⟨hst, hown⟩ | ⟨stage, cycle, hst, hcollects⟩
  · obtain ⟨hst', hdeeds⟩ := hstill _ hst rfl
    exact ⟨hdeeds.trans h.deeds, h.going, hl, hcaches, .inl ⟨hst', hown⟩⟩
  · have hwants : stage.wantsCycle = true := by
      have hcycle := hcollects.atCycle
      cases stage <;> first | rfl | cases hcycle
    obtain ⟨hst', hdeeds⟩ := hstill _ hst hwants
    exact ⟨hdeeds.trans h.deeds, h.going, hl, hcaches, .inr ⟨stage, cycle, hst',
      hcollects.atCycle, hcollects.call, fun hcount => hcollects.result (count_before hlog hcount)⟩⟩

theorem play (ht : t.Reachable) {moves : List Move}
    (hgoing : ∀ result, .returns result ∉ doneSince t (t.play moves) id)
    (hwrites : ∀ a value, .receives a (.ok value) ∉ deedsSince t (t.play moves)) :
    Refreshing s (t.play moves) id (own ++ doneSince t (t.play moves) id) := by
  induction moves generalizing t own with
  | nil =>
      rw [play_nil, doneSince_of_deeds_eq (List.append_nil _).symm, List.append_nil]
      exact h
  | cons m rest ih =>
      rw [doneSince_cons] at hgoing ⊢
      rw [deedsSince_play_cons] at hwrites
      simp only [List.mem_append, not_or] at hgoing hwrites
      rw [← List.append_assoc]
      apply ih _ (ht.play [m]) (fun result => (hgoing result).2) fun a value => (hwrites a value).2
      by_cases hm : m = .step id
      · subst hm
        obtain ⟨more, hmore, hnext⟩ := h.turn ht (step_turn t id)
        have hdone : doneSince t (t.move (.step id)) id = more := doneSince_of_deeds_eq hmore
        rcases hnext with hnext | ⟨⟨result, hreturns⟩, -⟩
        · rw [hdone]
          exact hnext
        · exact absurd (hdone ▸ hreturns) (hgoing result).1
      · have hnext := h.meanwhile ht hm fun a value => (hwrites a value).1
        have hdone : doneSince t (t.move m) id = [] := by
          apply doneSince_of_deeds_eq
          rw [hnext.deeds, h.deeds, List.append_nil]
        rw [hdone, List.append_nil]
        exact hnext

end Refreshing

theorem refreshing_start (hst : s.stage? id = some .awaitingCycle)
    (hl : s.cycleLock.holder = some id) : Refreshing s s id [] where
  deeds := (List.append_nil _).symm
  going := nofun
  holder := hl
  caches := ⟨fun _ _ => rfl, nofun⟩
  place := .inl ⟨hst, rfl⟩

-- A refresh that has obtained the cycle lock comes to its end, in whatever way, and no write was
-- acknowledged meanwhile. Then what is cached at an address is what it has read there last, and
-- where it has read nothing it is what was cached before. If it succeeds it returns exactly what it
-- has read.
theorem refreshed_of_returns (hs : s.Reachable) (hst : s.stage? id = some .awaitingCycle)
    (hl : s.cycleLock.holder = some id) (moves : List Move)
    (hgoing : ∀ result, .returns result ∉ doneSince s (s.play moves) id)
    (hreturns : ∃ result, .returns result ∈ doneSince s ((s.play moves).step id) id)
    (hwrites : ∀ a value, .receives a (.ok value) ∉ deedsSince s ((s.play moves).step id)) :
    Refreshed s ((s.play moves).step id) (doneSince s ((s.play moves).step id) id) := by
  have hbefore : ∀ a value, Deed.receives a (.ok value) ∉ deedsSince s (s.play moves) := by
    intro a value hmem
    obtain ⟨first, hfirst⟩ := log_play s moves
    obtain ⟨later, hlater⟩ := log_move (s.play moves) (.step id)
    have hboth : ((s.play moves).step id).log = s.log ++ (first ++ later) := by
      rw [← List.append_assoc, ← hfirst]
      exact hlater
    apply hwrites a value
    rw [deedsSince_of_log_eq hfirst] at hmem
    rw [deedsSince_of_log_eq hboth]
    exact List.mem_append_left _ hmem
  have hunderway := (refreshing_start hst hl).play hs hgoing hbefore
  rw [List.nil_append] at hunderway
  obtain ⟨more, hmore, hnext⟩ := hunderway.turn (hs.play moves) (step_turn _ id)
  have hdone : doneSince s ((s.play moves).step id) id = doneSince s (s.play moves) id ++ more := by
    apply doneSince_of_deeds_eq
    rw [hmore, hunderway.deeds, List.append_assoc]
  rw [hdone] at hreturns ⊢
  rcases hnext with hnext | ⟨-, hnext⟩
  · obtain ⟨result, hmem⟩ := hreturns
    exact absurd hmem (hnext.going result)
  · exact hnext

-- A write has cached a value of the fourth address. The first address is read, the second one is
-- missing, and the third one fails.
def fourWatched : System :=
  (fresh {} .f1255
    { source := .pump
        { model := .f1255
          coils := .insert 1 ({ address := 1, name := "", title := "" }, .integer 7)
            (.insert 4 ({ address := 4, name := "", title := "", writable := true }, .integer 8)
              .empty)
          readFaults := .insert 3 [.fatal "a"] .empty } }).play
    [.act (.listen "first" [1, 2, 3, 4] []), .spawn (.write 4 (.integer 9)), .step 0, .step 0,
      .step 0, .spawn .refresh, .step 1]

theorem refreshed_of_returns_fourWatched :
    fourWatched.hub.cache.values = [(4, .integer 9)] ∧
      ((fourWatched.play (.replicate 6 (.step 1))).step 1).hub.cache.values =
        [(1, .integer 7), (4, .integer 9)] ∧
      .returns (.error (.refreshFailed 3 (.fatal "a"))) ∈
        doneSince fourWatched ((fourWatched.play (.replicate 6 (.step 1))).step 1) 1 ∧
      Refreshed fourWatched ((fourWatched.play (.replicate 6 (.step 1))).step 1)
        (doneSince fourWatched ((fourWatched.play (.replicate 6 (.step 1))).step 1) 1) := by
  have hgoing : (doneSince fourWatched (fourWatched.play (.replicate 6 (.step 1))) 1).any
      Deed.isReturn = false := rfl
  have hwrites : (deedsSince fourWatched ((fourWatched.play (.replicate 6 (.step 1))).step 1)).any
      Deed.isReceipt = false := rfl
  have hreturns : .returns (.error (.refreshFailed 3 (.fatal "a"))) ∈
      doneSince fourWatched ((fourWatched.play (.replicate 6 (.step 1))).step 1) 1 :=
    List.mem_of_getLast? rfl
  refine ⟨rfl, rfl, hreturns, refreshed_of_returns ⟨_, _, _, _, rfl⟩ rfl rfl _ ?_ ⟨_, hreturns⟩ ?_⟩
  · exact fun result hmem => List.any_eq_false.mp hgoing _ hmem rfl
  · exact fun a value hmem => List.any_eq_false.mp hwrites _ hmem rfl

end System

end CoilHub
