import CoilHub.Proofs.Cache.Agreement
import CoilHub.Proofs.Interleaving.Phases

namespace CoilHub.System

variable {s s' : System} {id : TaskId} {entries more : List (TaskId × Deed)} {cache next : Cache}

-- What was stored at an address, in a part of the log.
def storesIn (entries : List (TaskId × Deed)) (a : Address) : List CacheEntry :=
  entries.filterMap fun
    | (_, .offers revision b value true) =>
      if b = a then some { revision, address := b, value } else none
    | _ => none

theorem storesIn_append (entries more : List (TaskId × Deed)) (a : Address) :
    storesIn (entries ++ more) a = storesIn entries a ++ storesIn more a := List.filterMap_append

theorem mem_storesIn {a : Address} {e : CacheEntry} :
    e ∈ storesIn entries a ↔
      e.address = a ∧ ∃ id, (id, .offers e.revision a e.value true) ∈ entries := by
  unfold storesIn
  rw [List.mem_filterMap]
  constructor
  · rintro ⟨⟨id, deed⟩, hmem, he⟩
    split at he
    case h_1 heq =>
      cases heq
      split at he
      case isTrue hb =>
        subst hb
        cases he
        exact ⟨rfl, id, hmem⟩
      case isFalse => cases he
    case h_2 => cases he
  · rintro ⟨rfl, id, hmem⟩
    exact ⟨_, hmem, if_pos rfl⟩

theorem storesIn_eq_nil {deeds : List Deed} (h : offersIn deeds = []) (a : Address) :
    storesIn (deeds.map fun deed => (id, deed)) a = [] := by
  rw [List.eq_nil_iff_forall_not_mem]
  intro e he
  obtain ⟨-, j, hmem⟩ := mem_storesIn.mp he
  obtain ⟨deed, hdeed, heq⟩ := List.mem_map.mp hmem
  cases heq
  have hoffer : (e.revision, true) ∈ offersIn deeds := List.mem_filterMap.mpr ⟨_, hdeed, rfl⟩
  rw [h] at hoffer
  cases hoffer

-- A cache that holds what these entries say was stored last.
def Reflects (cache : Cache) (entries : List (TaskId × Deed)) : Prop :=
  ∀ a, cache.entries.get? a = (storesIn entries a).getLast?

namespace Reflects

variable (h : Reflects cache entries)
include h

theorem silent (hsame : next.entries = cache.entries) (hmore : ∀ a, storesIn more a = []) :
    Reflects next (entries ++ more) := by
  intro a
  rw [storesIn_append, hmore, List.append_nil, hsame]
  exact h a

theorem before (hmore : ∀ a, storesIn more a = []) {l : List (TaskId × Deed)}
    (heq : entries = l ++ more) : Reflects cache l := by
  intro a
  rw [h a, heq, storesIn_append, hmore, List.append_nil]

-- A value that is stored is the last one of its address, and a refused one leaves no trace.
theorem obtains {revision : UInt64} {a : Address} {result : FetchResult CoilValue}
    {offers : List Deed} {stored : Option CachedValue}
    (hobtains : Obtains cache revision a result next offers stored) {answer : Deed}
    (hanswer : answer = .hears a result ∨ answer = .receives a result) (id : TaskId) :
    Reflects next (entries ++ (answer :: offers).map fun deed => (id, deed)) := by
  have hcons : ∀ b, storesIn ((answer :: offers).map fun deed => (id, deed)) b =
      storesIn (offers.map fun deed => (id, deed)) b := by
    intro b
    rcases hanswer with rfl | rfl <;> rfl
  cases hobtains with
  | missing b => exact h.silent rfl hcons
  | refused hstore => exact h.silent rfl hcons
  | @stored value next hstore =>
      intro b
      rw [Cache.entries_of_store? hstore, AddressMap.get?_insert, storesIn_append, hcons]
      by_cases hb : b = a
      · subst hb
        simp [storesIn]
      · have hnone : storesIn [(id, .offers revision a value true)] b = [] := by
          simp [storesIn, Ne.symm hb]
        rw [if_neg hb, List.map_singleton, hnone, List.append_nil]
        exact h b

end Reflects

-- Whatever is offered to the cache was answered just before.
def Answered (deeds : List Deed) : Prop :=
  ∀ before revision a value stored after, deeds = before ++ .offers revision a value stored :: after →
    before.getLast? = some (.hears a (.ok value)) ∨ before.getLast? = some (.receives a (.ok value))

theorem Answered.obtains {revision : UInt64} {a : Address} {result : FetchResult CoilValue}
    {offers : List Deed} {stored : Option CachedValue} {answer : Deed}
    (hobtains : Obtains cache revision a result next offers stored)
    (hanswer : answer = .hears a result ∨ answer = .receives a result) :
    Answered (answer :: offers) := by
  intro before revision' a' value' stored' after heq
  cases before with
  | nil =>
      injection heq with hfirst
      rcases hanswer with rfl | rfl <;> cases hfirst
  | cons first rest =>
      injection heq with hfirst hrest
      subst hfirst
      have hmem : Deed.offers revision' a' value' stored' ∈ offers := by
        rw [hrest]
        simp
      cases hobtains with
      | missing b => cases hmem
      | stored hstore =>
          cases List.mem_singleton.mp hmem
          obtain ⟨rfl, -⟩ := (List.append_eq_singleton_iff.mp hrest.symm).resolve_right (by simp)
          simpa using hanswer
      | refused hstore =>
          cases List.mem_singleton.mp hmem
          obtain ⟨rfl, -⟩ := (List.append_eq_singleton_iff.mp hrest.symm).resolve_right (by simp)
          simpa using hanswer

-- In every state of a run the cache reflects the log, and so did the cache of each hub that listeners
-- found when they were called.
structure Reflected (s : System) : Prop where
  cache : Reflects s.hub.cache s.entries
  calls : ∀ before id hub ls after, s.entries = before ++ (id, .calls hub ls) :: after →
    Reflects hub.cache before
  answered : ∀ before id revision a value stored after,
    s.entries = before ++ (id, .offers revision a value stored) :: after →
      before.getLast? = some (id, .hears a (.ok value)) ∨
        before.getLast? = some (id, .receives a (.ok value))

-- The entries of a turn, cut at one of them.
theorem Turned.cut {stage : Stage} {cycleLock transport : Lock} {success : Bool} {deeds : List Deed}
    (h : Turned id s stage cycleLock transport cache success deeds s')
    {before after : List (TaskId × Deed)} {j : TaskId} {deed : Deed}
    (heq : s'.entries = before ++ (j, deed) :: after) :
    (∃ rest, s.entries = before ++ (j, deed) :: rest) ∨
      j = id ∧ ∃ first rest, deeds = first ++ deed :: rest ∧
        before = s.entries ++ first.map fun deed => (id, deed) := by
  rw [h.entries_eq] at heq
  rcases split_append heq with ⟨rest, hold, -⟩ | ⟨more, rfl, hnew⟩
  · exact .inl ⟨rest, hold⟩
  · obtain ⟨first, rest, rfl, rfl, hrest⟩ := List.map_eq_append_iff.mp hnew
    obtain ⟨deed', rest', rfl, hpair, -⟩ := List.map_eq_cons_iff.mp hrest
    cases hpair
    exact .inr ⟨rfl, first, rest', rfl, rfl⟩

namespace Reflected

variable (hs : s.Reflected) {stage : Stage} {cycleLock transport : Lock} {success : Bool}
include hs

-- First the cache changes, if it does, and then listeners are called, if any are.
theorem turned {first rest : List Deed}
    (h : Turned id s stage cycleLock transport cache success (first ++ rest) s')
    (hfirst : Reflects cache (s.entries ++ first.map fun deed => (id, deed)))
    (hsilent : ∀ hub ls, .calls hub ls ∉ first) (hanswered : Answered first)
    (hoffers : offersIn rest = []) (hcalls : ∀ hub ls, .calls hub ls ∈ rest → hub.cache = cache) :
    s'.Reflected where
  cache := by
    rw [h.entries_eq, h.cache_eq, List.map_append, ← List.append_assoc]
    exact hfirst.silent rfl (storesIn_eq_nil hoffers)
  calls := by
    intro before j hub ls after heq
    rcases h.cut heq with ⟨rest, hold⟩ | ⟨rfl, first', rest', hnew, rfl⟩
    · exact hs.calls before j hub ls rest hold
    · rcases split_append hnew with ⟨rest', rfl, -⟩ | ⟨more, rfl, rfl⟩
      · exact absurd (by simp) (hsilent hub ls)
      · rw [hcalls hub ls (by simp), List.map_append, ← List.append_assoc]
        apply hfirst.silent rfl
        rw [offersIn_append] at hoffers
        exact storesIn_eq_nil (List.append_eq_nil_iff.mp hoffers).1
  answered := by
    intro before j revision a value stored after heq
    rcases h.cut heq with ⟨rest, hold⟩ | ⟨rfl, first', rest', hnew, rfl⟩
    · exact hs.answered before j revision a value stored rest hold
    · rcases split_append hnew with ⟨rest', hdeeds, -⟩ | ⟨more, -, rfl⟩
      · rw [List.getLast?_append, List.getLast?_map]
        rcases hanswered first' revision a value stored rest' hdeeds with hlast | hlast
        · exact .inl (by simp [hlast])
        · exact .inr (by simp [hlast])
      · rw [offersIn_append] at hoffers
        cases (List.append_eq_nil_iff.mp hoffers).2

theorem silent {deeds : List Deed}
    (h : Turned id s stage cycleLock transport cache success deeds s')
    (hsame : cache.entries = s.hub.cache.entries) (hoffers : offersIn deeds = [])
    (hcalls : ∀ hub ls, .calls hub ls ∈ deeds → hub.cache = cache) : s'.Reflected := by
  have hcache : Reflects cache (s.entries ++ ([] : List Deed).map fun deed => (id, deed)) :=
    hs.cache.silent hsame fun _ => rfl
  have hturned : Turned id s stage cycleLock transport cache success ([] ++ deeds) s' := h
  exact hs.turned hturned hcache (fun _ _ => List.not_mem_nil) (by simp [Answered]) hoffers hcalls

theorem answers {revision : UInt64} {a : Address} {result : FetchResult CoilValue}
    {offers rest : List Deed} {stored : Option CachedValue} {answer : Deed}
    (h : Turned id s stage cycleLock transport cache success (answer :: offers ++ rest) s')
    (hobtains : Obtains s.hub.cache revision a result cache offers stored)
    (hanswer : answer = .hears a result ∨ answer = .receives a result)
    (hoffers : offersIn rest = [])
    (hcalls : ∀ hub ls, .calls hub ls ∈ rest → hub.cache = cache) : s'.Reflected := by
  have hsilent : ∀ hub ls, .calls hub ls ∉ answer :: offers := by
    rcases hanswer with rfl | rfl <;> cases hobtains <;> simp
  exact hs.turned h (hs.cache.obtains hobtains hanswer id) hsilent
    (.obtains hobtains hanswer) hoffers hcalls

omit hs in
theorem cache_of_toldAfter {job : Job} {result : RefreshResult} {last hub : Hub}
    {ls : List HubListener} (h : .calls hub ls ∈ toldAfter job result last) :
    hub.cache = last.cache := by
  unfold toldAfter at h
  split at h
  any_goals cases h
  all_goals
    split at h
    · cases List.mem_singleton.mp h
      rfl
    · cases h

theorem turn (ht : Turn id s s') : s'.Reflected := by
  cases ht with
  | stays heq _ => exact heq ▸ hs
  | queues hjob hr hst hfrom h => exact hs.silent h rfl rfl (by simp)
  | queuesWrite hjob hst hc h => exact hs.silent h rfl rfl (by simp)
  | declinesWrite hjob hst hc h => exact hs.silent h rfl rfl (by simp)
  | rests hjob hw hst hfrom h => exact hs.silent h rfl rfl (by simp)
  | ends hjob hother hst hfrom h => exact hs.silent h rfl rfl (by simp)
  | declines hjob hst hl hc h => exact hs.silent h rfl rfl (by simp)
  | beginsNothing hjob hst hl hc hp h => exact hs.silent h rfl rfl (by simp)
  | begins hst hl hc hp h => exact hs.silent h rfl rfl (by simp)
  | asks hst hp hl hc h => exact hs.silent h rfl rfl (by simp)
  | withdraws hjob hst hp hl hc hhub h =>
      exact hs.silent h rfl rfl (by simp [hhub.cache])
  | asksAgain hst hp hc hresult h => exact hs.silent h rfl rfl (by simp)
  | settles hst hp hrest hc hobtains hhub h =>
      exact hs.answers h hobtains (.inl rfl) rfl (by simp [hhub.cache])
  | settlesLast hjob hst hp hc hobtains hhub h =>
      exact hs.answers h hobtains (.inl rfl) rfl (by simp [hhub.cache])
  | givesUp hjob hst hp hc hhub h =>
      exact hs.silent h rfl rfl (by simp [hhub.cache])
  | @fails job cycle a watchers rest revision attempt due e hub last hjob hst hp hc hresult hfound
      hhub hlast h =>
      have htold := toldAfter_calls job (.error (.refreshFailed a e)) last
      refine hs.silent h rfl ?_ fun hub' ls hmem => ?_
      · rcases htold with htold | ⟨told, ls, htold⟩ <;> rw [htold] <;> rfl
      · simp only [List.mem_cons, reduceCtorEq, false_or, Deed.calls.injEq] at hmem
        rcases hmem with ⟨rfl, -⟩ | hmem
        · exact hhub.cache
        · exact (cache_of_toldAfter hmem).trans hlast.cache
  | sends hst hl h => exact hs.silent h rfl rfl (by simp)
  | refused hst h => exact hs.silent h rfl rfl (by simp)
  | @acknowledged a value ack revision hadData cache offers stored hub hst hobtains hhub h =>
      refine hs.answers h hobtains (.inr rfl) ?_ ?_
      · cases hadData <;> rfl
      · cases hadData <;> simp [hhub.cache]

theorem aside (h : Aside s s') : s'.Reflected := by
  refine ⟨?_, ?_, ?_⟩
  · rw [h.cache, h.entries_eq]
    exact hs.cache
  · rw [h.entries_eq]
    exact hs.calls
  · rw [h.entries_eq]
    exact hs.answered

end Reflected

theorem Reachable.reflected (hs : s.Reachable) : s.Reflected := by
  apply hs.induction
  · intro settings model gateway
    exact ⟨fun _ => rfl, by simp [entries, fresh], by simp [entries, fresh]⟩
  · intro s m hs ih
    rcases move_cases s m with ⟨id, -, ht⟩ | ⟨-, ha⟩
    · exact ih.turn ht
    · exact ih.aside ha

theorem log_eq_entries (s : System) : s.log = s.entries.map Prod.snd := by
  unfold log entries
  rw [List.map_reverse]

theorem stores_sublist_offers (entries : List (TaskId × Deed)) (a : Address) :
    ((storesIn entries a).map fun e => (e.revision, true)).Sublist
      (offersIn (entries.map Prod.snd)) := by
  induction entries with
  | nil => exact .slnil
  | cons entry rest ih =>
      obtain ⟨id, deed⟩ := entry
      cases deed with
      | offers revision b value stored =>
          cases stored with
          | true =>
              by_cases hb : b = a
              · simpa [storesIn, offersIn, hb] using ih
              · simpa [storesIn, offersIn, hb] using ih.cons _
          | false => exact ih.cons _
      | _ => exact ih

-- Values are stored at an address in the order of their revisions.
theorem Reachable.stores_rise (hs : s.Reachable) (hcount : (revisionsIn s.log).length < 2 ^ 64)
    (a : Address) :
    (storesIn s.entries a).Pairwise fun earlier later => earlier.revision < later.revision := by
  have hrising := (hs.numbered hcount).rising
  rw [log_eq_entries] at hrising
  have hstores := hrising.sublist (stores_sublist_offers s.entries a)
  rw [List.pairwise_map] at hstores
  exact hstores

theorem Reachable.stored_of_offers (hs : s.Reachable)
    (hcount : (revisionsIn s.log).length < 2 ^ 64) {revision : UInt64} {a : Address}
    {value : CoilValue} {stored : Bool} (h : (id, .offers revision a value stored) ∈ s.entries) :
    stored = true := by
  apply (hs.numbered hcount).stored (revision, stored)
  rw [log_eq_entries]
  exact List.mem_filterMap.mpr ⟨_, List.mem_map_of_mem h, rfl⟩

-- A write is answered about its own address.
theorem Turn.receives (ho : s.Orderly) (ht : Turn id s s') {j : TaskId} {a : Address}
    {result : FetchResult CoilValue} (h : (j, .receives a result) ∈ s'.entries) :
    (j, .receives a result) ∈ s.entries ∨ ∃ value, s.job? j = some (.write a value) := by
  have hwriting : ∀ {a' value revision hadData},
      s.stage? id = some (.writing a' value revision hadData) →
        ∃ value, s.job? id = some (.write a' value) := by
    intro a' value revision hadData hst
    obtain ⟨job, hjob⟩ := job?_of_stage? hst
    exact ⟨value, hjob.trans (congrArg some (ho.fits id job _ hjob hst))⟩
  cases ht with
  | stays hs _ => exact .inl (hs ▸ h)
  | refused hst hturned =>
      simp only [hturned.entries_eq, List.mem_append, List.map_singleton, List.mem_singleton,
        Prod.mk.injEq, Deed.receives.injEq] at h
      rcases h with h | ⟨rfl, rfl, -⟩
      · exact .inl h
      · exact .inr (hwriting hst)
  | @acknowledged a' value ack revision hadData cache offers stored hub hst hobtains hhub hturned =>
      rw [hturned.entries_eq] at h
      rcases List.mem_append.mp h with h | h
      · exact .inl h
      · have hnew : j = id ∧ a' = a := by
          cases hobtains <;> cases hadData <;> simp at h <;> grind
        obtain ⟨rfl, rfl⟩ := hnew
        exact .inr (hwriting hst)
  | settles hst hp hrest hc hobtains hhub hturned =>
      left
      cases hobtains <;> simpa [hturned.entries_eq] using h
  | settlesLast hjob hst hp hc hobtains hhub hturned =>
      left
      cases hobtains <;> simpa [hturned.entries_eq] using h
  | @fails job cycle a' watchers rest revision attempt due e hub last hjob hst hp hc hresult hfound
      hhub hlast hturned =>
      left
      rcases toldAfter_calls job (.error (.refreshFailed a' e)) last with htold | ⟨told, ls, htold⟩
      · simpa [hturned.entries_eq, htold] using h
      · simpa [hturned.entries_eq, htold] using h
  | _ =>
      rename_i hturned
      left
      simpa [hturned.entries_eq] using h

theorem Reachable.write_of_receives (hs : s.Reachable) {a : Address}
    {result : FetchResult CoilValue} (h : (id, .receives a result) ∈ s.entries) :
    ∃ value, s.job? id = some (.write a value) := by
  have hall : ∀ id a result, (id, .receives a result) ∈ s.entries →
      ∃ value, s.job? id = some (.write a value) := by
    apply hs.induction (P := fun s => ∀ id a result, (id, .receives a result) ∈ s.entries →
      ∃ value, s.job? id = some (.write a value))
    · intro settings model gateway id a result h
      simp [entries, fresh] at h
    · intro s m hs ih id a result h
      have hbefore : ∃ value, s.job? id = some (.write a value) := by
        rcases move_cases s m with ⟨j, -, ht⟩ | ⟨-, ha⟩
        · exact (ht.receives hs.orderly h).elim (ih id a result) fun hjob => hjob
        · rw [ha.entries_eq] at h
          exact ih id a result h
      obtain ⟨value, hjob⟩ := hbefore
      exact ⟨value, job?_move hjob m⟩
  exact hall id a result h

end CoilHub.System
