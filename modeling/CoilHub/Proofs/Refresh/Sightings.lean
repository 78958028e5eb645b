import CoilHub.Proofs.Cache.Agreement
import CoilHub.Proofs.Cache.Contents
import CoilHub.Proofs.Interleaving.Exclusion

namespace CoilHub

-- What a list says about an element that only stands at its end.
theorem split_last {α : Type} {l before after : List α} {x y : α}
    (h : l ++ [y] = before ++ x :: after) (hx : x ∉ l) : before = l ∧ x = y := by
  rcases split_append h with ⟨rest, rfl, -⟩ | ⟨first, rfl, hlast⟩
  · exact absurd (by simp) hx
  · cases first with
    | nil =>
        injection hlast with hxy
        exact ⟨List.append_nil l, hxy.symm⟩
    | cons z rest => simp at hlast

-- What the deeds of a refresh of these listeners tell, at whatever point it is.
structure Reports (ls : List HubListener) (deeds : List Deed) : Prop where
  -- a value that was read is offered at once, under the revision of that call of the pump
  answers : ∀ before b value after, deeds = before ++ .hears b (.ok value) :: after →
    ∃ revision stored rest, .reserves revision ∈ before ∧
      after = .offers revision b value stored :: rest
  -- listeners are called after an address is settled, or after the refresh is given up
  calls : ∀ before hub called after, deeds = before ++ .calls hub called :: after →
    (∃ earlier a, before = earlier ++ [.settles a] ∧ called = ls.filter (hearsOf earlier a)) ∨
      ∃ earlier, before = earlier ++ [.abandons] ∧ called = ls.filter (waitsAfter earlier)
  stored : (storedIn deeds).Sublist (settledIn deeds)

namespace Reports

variable {ls : List HubListener} {deeds more : List Deed}

theorem append (h : Reports ls deeds)
    (hanswers : ∀ first b value after, more = first ++ .hears b (.ok value) :: after →
      ∃ revision stored rest, .reserves revision ∈ deeds ++ first ∧
        after = .offers revision b value stored :: rest)
    (hcalls : ∀ first hub called after, more = first ++ .calls hub called :: after →
      (∃ earlier a, deeds ++ first = earlier ++ [.settles a] ∧
        called = ls.filter (hearsOf earlier a)) ∨
      ∃ earlier, deeds ++ first = earlier ++ [.abandons] ∧
        called = ls.filter (waitsAfter earlier))
    (hstored : (storedIn more).Sublist (settledIn more)) : Reports ls (deeds ++ more) where
  answers := by
    intro before b value after heq
    rcases split_append heq with ⟨rest, hd, rfl⟩ | ⟨first, rfl, hm⟩
    · obtain ⟨revision, stored, rest', hmem, rfl⟩ := h.answers before b value rest hd
      exact ⟨revision, stored, rest' ++ more, hmem, rfl⟩
    · exact hanswers first b value after hm
  calls := by
    intro before hub called after heq
    rcases split_append heq with ⟨rest, hd, rfl⟩ | ⟨first, rfl, hm⟩
    · exact h.calls before hub called rest hd
    · exact hcalls first hub called after hm
  stored := by
    rw [storedIn_append, settledIn_append]
    exact h.stored.append hstored

theorem quiet (h : Reports ls deeds) (hanswers : ∀ b value, .hears b (.ok value) ∉ more)
    (hcalls : ∀ hub called, .calls hub called ∉ more) (hstored : storedIn more = []) :
    Reports ls (deeds ++ more) := by
  apply h.append
  · rintro first b value after rfl
    exact absurd (by simp) (hanswers b value)
  · rintro first hub called after rfl
    exact absurd (by simp) (hcalls hub called)
  · rw [hstored]
    exact List.nil_sublist _

theorem settle (h : Reports ls deeds) {revision : UInt64} {a : Address}
    {result : FetchResult CoilValue} {cache next : Cache} {offers : List Deed}
    {stored : Option CachedValue} (hrevision : .reserves revision ∈ deeds)
    (hobtains : System.Obtains cache revision a result next offers stored)
    {called : List HubListener}
    (hcalled : called = ls.filter (hearsOf (deeds ++ .hears a result :: offers) a)) (hub : Hub) :
    Reports ls (deeds ++ (.hears a result :: offers ++ [.settles a, .calls hub called])) := by
  apply h.append
  · intro first b value after heq
    cases first with
    | nil =>
        injection heq with hhears hafter
        cases hhears
        cases hobtains with
        | stored hstore => exact ⟨revision, true, _, by simpa using hrevision, hafter.symm⟩
        | refused hstore => exact ⟨revision, false, _, by simpa using hrevision, hafter.symm⟩
    | cons deed first =>
        have hrest : offers ++ [.settles a, .calls hub called] =
            first ++ .hears b (.ok value) :: after := by injection heq
        have hmem : Deed.hears b (.ok value) ∈ offers ++ [.settles a, .calls hub called] := by
          rw [hrest]
          simp
        cases hobtains <;> simp at hmem
  · intro first hub' called' after heq
    have hsplit : (.hears a result :: offers ++ [.settles a]) ++ [.calls hub called] =
        first ++ .calls hub' called' :: after := by
      simpa using heq
    have hnone : Deed.calls hub' called' ∉ .hears a result :: offers ++ [.settles a] := by
      cases hobtains <;> simp
    obtain ⟨rfl, hlast⟩ := split_last hsplit hnone
    cases hlast
    exact .inl ⟨_, a, (List.append_assoc _ _ _).symm, hcalled⟩
  · cases hobtains <;> simp [storedIn, settledIn]

theorem abandon (h : Reports ls deeds) {called : List HubListener}
    (hcalled : called = ls.filter (waitsAfter deeds)) (hub : Hub) :
    Reports ls (deeds ++ [.abandons, .calls hub called]) := by
  apply h.append
  · intro first b value after heq
    have hmem : Deed.hears b (.ok value) ∈ [.abandons, .calls hub called] := by
      rw [heq]
      simp
    simp at hmem
  · intro first hub' called' after heq
    have hsplit : [Deed.abandons] ++ [.calls hub called] = first ++ .calls hub' called' :: after := heq
    obtain ⟨rfl, hlast⟩ := split_last hsplit (by simp)
    cases hlast
    exact .inr ⟨deeds, rfl, hcalled⟩
  · exact List.nil_sublist _

end Reports

theorem Accounts.completed_eq {ls : List HubListener} {deeds : List Deed} {cycle : HubCycle}
    (h : Accounts ls deeds cycle) {a : Address} {watchers : List Nat}
    {rest : List (Address × List Nat)} {result : FetchResult CoilValue} {revision : UInt64}
    {cache next : Cache} {offers : List Deed} {stored : Option CachedValue}
    (hp : cycle.pending = (a, watchers) :: rest)
    (hobtains : System.Obtains cache revision a result next offers stored) :
    (cycle.settle stored).2 = ls.filter (hearsOf (deeds ++ .hears a result :: offers) a) := by
  obtain ⟨hsettled, -, hstored, -⟩ := h.answer hobtains
  rw [h.tracks.completed_eq hp stored, ← hstored, ← hsettled]
  rfl

theorem Going.reports {limit : Nat} {ls : List HubListener} {deeds : List Deed} {stage : Stage}
    (h : Going limit ls deeds stage) :
    Reports ls deeds ∧ ∀ revision, stage.revision? = some revision → .reserves revision ∈ deeds := by
  induction h with
  | begins hp => exact ⟨⟨by simp, by simp, .slnil⟩, nofun⟩
  | asks h hp ih =>
      refine ⟨ih.1.quiet (by simp) (by simp) rfl, fun revision hr => ?_⟩
      cases hr
      simp
  | @asksAgain deeds cycle a watchers rest revision attempt due due' result h hp hresult ih =>
      refine ⟨ih.1.quiet ?_ (by simp) rfl, fun revision' hr => ?_⟩
      · cases result with
        | ok value => cases hresult
        | error e => simp
      · exact List.mem_append_left _ (ih.2 revision' hr)
  | settles h hp hrest hobtains ih =>
      exact ⟨ih.1.settle (ih.2 _ rfl) hobtains ((h.accounts rfl).completed_eq hp hobtains) _, nofun⟩

theorem Course.reports {limit : Nat} {ls : List HubListener} {deeds : List Deed}
    {result : RefreshResult} (h : Course limit ls deeds result) : Reports ls deeds := by
  cases h with
  | beginsNothing hp => exact ⟨by simp, by simp, .slnil⟩
  | settlesLast h hp hobtains =>
      obtain ⟨hreports, hrevision⟩ := h.reports
      exact hreports.settle (hrevision _ rfl) hobtains ((h.accounts rfl).completed_eq hp hobtains) _
  | @withdraws deeds cycle revision hub h =>
      have haccounts := h.accounts rfl
      have hreports : Reports ls (deeds ++ [.reserves revision]) :=
        h.reports.1.quiet (by simp) (by simp) rfl
      have hwaiting : cycle.waiting = ls.filter (waitsAfter (deeds ++ [.reserves revision])) :=
        (haccounts.quiet rfl rfl rfl).tracks.waiting_eq
      simpa using hreports.abandon hwaiting hub
  | givesUp h => exact h.reports.1.abandon (h.accounts rfl).tracks.waiting_eq _
  | @fails deeds cycle a watchers rest revision attempt due e hub h hp hresult hfound =>
      have haccounts := h.accounts rfl
      have hreports : Reports ls (deeds ++ [.hears a (.error e)]) :=
        h.reports.1.quiet (by simp) (by simp) rfl
      have hwaiting : cycle.waiting = ls.filter (waitsAfter (deeds ++ [.hears a (.error e)])) :=
        (haccounts.quiet rfl rfl rfl).tracks.waiting_eq
      simpa using hreports.abandon hwaiting hub

-- A value that is stored at an address is the only one if each address comes once.
theorem offers_unique {deeds : List Deed} (h : (storedIn deeds).Nodup) {a : Address}
    {revision revision' : UInt64} {value value' : CoilValue}
    (hmem : .offers revision a value true ∈ deeds) (hmem' : .offers revision' a value' true ∈ deeds) :
    revision = revision' := by
  have hin : ∀ {deeds : List Deed}, .offers revision' a value' true ∈ deeds → a ∈ storedIn deeds :=
    fun hmem => List.mem_filterMap.mpr ⟨_, hmem, rfl⟩
  obtain ⟨before, after, rfl⟩ := List.append_of_mem hmem
  rw [storedIn_append] at h
  obtain ⟨-, hafter, hbefore⟩ := List.nodup_append.mp h
  rcases List.mem_append.mp hmem' with hmem' | hmem'
  · exact absurd rfl (hbefore a (hin hmem') a List.mem_cons_self)
  · rcases List.mem_cons.mp hmem' with heq | hmem'
    · cases heq
      rfl
    · exact absurd (hin hmem') (List.nodup_cons.mp hafter).1

namespace Diary

-- What has been made stays in the diary.
theorem mem_made {d : Diary} {r : Refresh} (h : r ∈ d.made) (deeds : List Deed) :
    r ∈ (d.write deeds).made := by
  induction deeds generalizing d with
  | nil => exact h
  | cons deed rest ih =>
      apply ih
      unfold next
      split
      case h_2 => exact List.mem_append_left _ h
      all_goals exact h

-- A refresh that is under way goes on until it returns, and is in the diary then.
theorem write_open {d : Diary} {ls : List HubListener} {done : List Deed} {p q : Phase}
    (more : List Deed) (h : d.current = some (ls, done)) (hp : p ≠ .outside)
    (hphase : more.foldlM Phase.next p = some q) :
    (d.write more).current = some (ls, done ++ more.takeWhile Deed.isPlain) ∨
      ∃ result, { listeners := ls, deeds := done ++ more.takeWhile Deed.isPlain, result } ∈
        (d.write more).made := by
  induction more generalizing d done p with
  | nil => exact .inl (by simpa [write] using h)
  | cons deed rest ih =>
      rw [List.foldlM_cons] at hphase
      obtain ⟨p', hnext, hrest⟩ := Option.bind_eq_some_iff.mp hphase
      have hwrite : d.write (deed :: rest) = (d.next deed).write rest := rfl
      rw [hwrite, List.takeWhile_cons]
      cases hplain : deed.isPlain with
      | true =>
          have hcurrent : (d.next deed).current = some (ls, done ++ [deed]) := by
            unfold next
            rw [h]
            cases deed <;> first | rfl | cases hplain
          have hp' : p' ≠ .outside := by
            cases p <;> cases deed <;> simp_all [Phase.next, Deed.isPlain] <;> simp [← hnext]
          have hih := ih hcurrent hp' hrest
          rw [List.append_assoc, List.singleton_append] at hih
          exact hih
      | false =>
          cases deed with
          | begins ls' => exact absurd (System.Phase.next_begins hnext).1 hp
          | returns result =>
              right
              refine ⟨result, mem_made ?_ rest⟩
              unfold next
              rw [h]
              simp
          | _ => cases hplain

end Diary

namespace System

variable {s s' : System} {id : TaskId}

-- A refresh that has not returned so far has only done what belongs to it.
theorem Reachable.plain_of_open (hs : s.Reachable) {first middle after : List (TaskId × Deed)}
    {ls : List HubListener} (h : s.entries = first ++ (id, .begins ls) :: (middle ++ after))
    (hopen : ∀ result, (id, .returns result) ∉ middle) :
    ∀ deed ∈ deedsIn middle id, deed.isPlain = true := by
  intro deed hdeed
  have hmem := mem_deedsIn.mp hdeed
  cases deed with
  | begins ls' =>
      obtain ⟨earlier, rest, rfl⟩ := List.append_of_mem hmem
      obtain ⟨result, hreturns⟩ := hs.begins_once (by simpa using h)
      exact absurd (List.mem_append_left _ hreturns) (hopen result)
  | returns result => exact absurd hmem (hopen result)
  | _ => rfl

-- What a task has done in a refresh up to some point, and what it does for it after that.
theorem Reachable.reports (hs : s.Reachable) {first middle after : List (TaskId × Deed)}
    {ls : List HubListener} (h : s.entries = first ++ (id, .begins ls) :: (middle ++ after))
    (hopen : ∀ result, (id, .returns result) ∉ middle) :
    ∃ deeds, deeds = deedsIn middle id ++ (deedsIn after id).takeWhile Deed.isPlain ∧
      Reports ls deeds ∧ (storedIn deeds).Nodup := by
  refine ⟨_, rfl, ?_⟩
  obtain ⟨p, q, -, hq, hphase⟩ := hs.phase_before h
  obtain ⟨-, rfl⟩ := Phase.next_begins hq
  have hdiary : s.diary id =
      ((Diary.write {} (deedsIn first id)).next (.begins ls)).write (deedsIn (middle ++ after) id) := by
    rw [diary, deeds_eq, h, deedsIn_append, deedsIn_cons_self, Diary.write_append]
    rfl
  have hdiligent := hs.documented.diligent id
  have hwritten := Diary.write_open _
    (rfl : ((Diary.write {} (deedsIn first id)).next (.begins ls)).current = some (ls, []))
    (by decide) hphase
  rw [← hdiary, List.nil_append, deedsIn_append,
    List.takeWhile_append_of_pos (hs.plain_of_open h hopen)] at hwritten
  have hnodup : ∀ {deeds}, Reports ls deeds →
      settledIn deeds <+: (InterestMap.build (ls.map (·.interest))).addresses →
      Reports ls deeds ∧ (storedIn deeds).Nodup := by
    intro deeds hreports hsettled
    have haddresses := InterestMap.nodup_addresses (ls.map (·.interest))
    exact ⟨hreports, haddresses.sublist (hreports.stored.trans hsettled.sublist)⟩
  rcases hwritten with hcurrent | ⟨result, hmade⟩
  · have habreast := hdiligent.abreast
    rw [hcurrent] at habreast
    obtain ⟨cycle, hcycle⟩ := Option.ne_none_iff_exists'.mp habreast.2.cycle?_ne_none
    have haccounts := habreast.2.accounts hcycle
    exact hnodup habreast.2.reports.1 haccounts.settled_prefix
  · have hcourse := (hdiligent.made _ hmade).2
    exact hnodup hcourse.reports hcourse.closes.settled

-- A refresh calls listeners. It began with its listeners, and this is what was done in the meantime, by
-- whomever.
structure CallsAt (s : System) (id : TaskId) (listeners : List HubListener)
    (middle : List (TaskId × Deed)) (hub : Hub) (called : List HubListener) : Prop where
  entries : ∃ first after, s.entries =
    first ++ (id, .begins listeners) :: (middle ++ (id, .calls hub called) :: after)
  goesOn : ∀ result, (id, .returns result) ∉ middle

-- What a cache has at an address that a refresh has read, if these were done before and after that:
-- nothing older than the value that was read. It is that one, or a write has been acknowledged since.
def UpToDate (s : System) (id : TaskId) (cache : Cache) (a : Address) (value : CoilValue)
    (before since : List (TaskId × Deed)) : Prop :=
  ∃ revision e, (id, .reserves revision) ∈ before ∧ cache.entries.get? a = some e ∧
    revision ≤ e.revision ∧
    (e = { revision, address := a, value } ∨
      ∃ j written, s.job? j = some (.write a written) ∧ (j, .receives a (.ok e.value)) ∈ since ∧
        (j, .offers e.revision a e.value true) ∈ since)

namespace CallsAt

variable {listeners called : List HubListener} {middle : List (TaskId × Deed)} {hub : Hub}
  (h : CallsAt s id listeners middle hub called)
include h

theorem reports (hs : s.Reachable) :
    ∃ rest, Reports listeners (deedsIn middle id ++ .calls hub called :: rest) ∧
      (storedIn (deedsIn middle id ++ .calls hub called :: rest)).Nodup := by
  obtain ⟨first, after, hentries⟩ := h.entries
  obtain ⟨deeds, rfl, hreports⟩ := hs.reports hentries h.goesOn
  rw [deedsIn_cons_self] at hreports
  exact ⟨_, hreports⟩

-- The last step before the call settled the last address of the listeners that are called, or it gave
-- the refresh up.
theorem completes (hs : s.Reachable) :
    (∃ a, (deedsIn middle id).getLast? = some (.settles a) ∧
      ∀ l ∈ called, l ∈ listeners ∧ a ∈ l.interest ∧
        ∀ b ∈ l.interest, b ∈ settledIn (deedsIn middle id)) ∨
    (deedsIn middle id).getLast? = some .abandons ∧ ∀ l ∈ called, l ∈ listeners := by
  obtain ⟨rest, hreports, -⟩ := h.reports hs
  rcases hreports.calls _ hub called rest rfl with ⟨earlier, a, hown, rfl⟩ | ⟨earlier, hown, rfl⟩
  · refine .inl ⟨a, by rw [hown, List.getLast?_concat], fun l hl => ?_⟩
    obtain ⟨hmem, hhears⟩ := List.mem_filter.mp hl
    simp only [hearsOf, Bool.and_eq_true, decide_eq_true_eq] at hhears
    obtain ⟨ha, -, hmissing⟩ := hhears
    refine ⟨hmem, AddressSet.contains_iff.mp ha, fun b hb => ?_⟩
    have hsettled := Listener.missing_eq_zero_iff.mp hmissing b hb
    rw [hown, settledIn_append]
    exact hsettled
  · exact .inr ⟨by rw [hown, List.getLast?_concat], fun l hl => (List.mem_filter.mp hl).1⟩

-- What was read is offered under the revision of that call of the pump.
theorem offers_of_hears (hs : s.Reachable) {before since : List (TaskId × Deed)} {a : Address}
    {value : CoilValue} (hmiddle : middle = before ++ (id, .hears a (.ok value)) :: since) :
    ∃ revision stored, (id, .reserves revision) ∈ before ∧
      (id, .offers revision a value stored) ∈ since := by
  obtain ⟨rest, hreports, -⟩ := h.reports hs
  have hown : deedsIn middle id ++ .calls hub called :: rest =
      deedsIn before id ++ .hears a (.ok value) :: (deedsIn since id ++ .calls hub called :: rest) := by
    rw [hmiddle, deedsIn_append, deedsIn_cons_self]
    simp
  obtain ⟨revision, stored, more, hreserves, hoffers⟩ := hreports.answers _ a value _ hown
  refine ⟨revision, stored, mem_deedsIn.mp hreserves, mem_deedsIn.mp ?_⟩
  cases hsince : deedsIn since id with
  | nil => simp [hsince] at hoffers
  | cons deed rest =>
      rw [hsince] at hoffers
      injection hoffers with hdeed
      rw [hdeed]
      exact List.mem_cons_self

-- Meanwhile anybody else is a write.
theorem others (hs : s.Reachable) {j : TaskId} {deed : Deed} (hmem : (j, deed) ∈ middle)
    (hj : j ≠ id) : deed.isOfWrite = true := by
  obtain ⟨first, after, hentries⟩ := h.entries
  obtain ⟨earlier, rest, rfl⟩ := List.append_of_mem hmem
  have hduring := hs.during_cycle first earlier (rest ++ (id, .calls hub called) :: after)
    (.begins listeners) (j, deed) (by simpa using hentries) ⟨listeners, rfl⟩
  refine ((hduring ?_).resolve_left hj).1
  rintro _ ⟨result, rfl⟩ hreturns
  exact h.goesOn result (List.mem_append_left _ hreturns)

-- A refresh stores one value at an address, so a later one was brought by a write. That one was
-- answered after the read, since nothing comes between an answer and the offer.
theorem brought (hs : s.Reachable) {before since : List (TaskId × Deed)} {a : Address} {value : CoilValue}
    (hmiddle : middle = before ++ (id, .hears a (.ok value)) :: since) {j : TaskId} (hj : j ≠ id)
    {revision : UInt64} {value' : CoilValue}
    (hoffer : (j, .offers revision a value' true) ∈ since) :
    ∃ written, s.job? j = some (.write a written) ∧ (j, .receives a (.ok value')) ∈ since := by
  obtain ⟨first, after, hentries⟩ := h.entries
  obtain ⟨earlier, rest, hsince⟩ := List.append_of_mem hoffer
  have hall : s.entries =
      (first ++ (id, .begins listeners) :: before ++ [(id, .hears a (.ok value))] ++ earlier) ++
        (j, .offers revision a value' true) :: (rest ++ (id, .calls hub called) :: after) := by
    rw [hentries, hmiddle, hsince]
    simp
  have hanswer := hs.reflected.answered _ j revision a value' true _ hall
  rw [List.getLast?_append] at hanswer
  cases hlast : earlier.getLast? with
  | none =>
      simp only [hlast, List.getLast?_concat, Option.none_or, Option.some.injEq, Prod.mk.injEq,
        Ne.symm hj, false_and, or_self] at hanswer
  | some last =>
      have hmem : last ∈ since := by
        rw [hsince]
        exact List.mem_append_left _ (List.mem_of_getLast? hlast)
      rw [hlast, Option.some_or, Option.some.injEq, Option.some.injEq] at hanswer
      rcases hanswer with rfl | rfl
      · have hearing : (j, Deed.hears a (.ok value')) ∈ middle := by simp [hmiddle, hmem]
        cases h.others hs hearing hj
      · obtain ⟨written, hjob⟩ := hs.write_of_receives
          (by rw [hentries, hmiddle]; simp [hmem] : (j, .receives a (.ok value')) ∈ s.entries)
        exact ⟨written, hjob, hmem⟩

theorem upToDate (hs : s.Reachable) (hcount : (revisionsIn s.log).length < 2 ^ 64)
    {before since : List (TaskId × Deed)} {a : Address} {value : CoilValue}
    (hmiddle : middle = before ++ (id, .hears a (.ok value)) :: since) :
    UpToDate s id hub.cache a value before since := by
  obtain ⟨revision, stored, hreserves, hoffers⟩ := h.offers_of_hears hs hmiddle
  obtain ⟨first, after, hentries⟩ := h.entries
  have hall : s.entries = (first ++ (id, .begins listeners) :: before ++
      [(id, .hears a (.ok value))] ++ since) ++ (id, .calls hub called) :: after := by
    rw [hentries, hmiddle]
    simp
  have hreflects := hs.reflected.calls _ id hub called after hall
  have hrise := hs.stores_rise hcount a
  obtain rfl := hs.stored_of_offers hcount (by rw [hall]; simp [hoffers] :
    (id, .offers revision a value stored) ∈ s.entries)
  have hown : { revision, address := a, value } ∈ storesIn since a :=
    mem_storesIn.mpr ⟨rfl, id, hoffers⟩
  obtain ⟨earlier, e, hlast⟩ : ∃ earlier e, storesIn since a = earlier ++ [e] :=
    ⟨_, _, (List.dropLast_concat_getLast (List.ne_nil_of_mem hown)).symm⟩
  have hget : hub.cache.entries.get? a = some e := by
    rw [hreflects a, storesIn_append, hlast, ← List.append_assoc, List.getLast?_concat]
  rw [hall, storesIn_append, storesIn_append, hlast] at hrise
  have hbefore : ∀ entry ∈ earlier, entry.revision < e.revision := by
    have hsince := (List.pairwise_append.mp (List.pairwise_append.mp hrise).1).2.1
    exact fun entry hmem => (List.pairwise_append.mp hsince).2.2 entry hmem e (by simp)
  rw [hlast] at hown
  rcases List.mem_append.mp hown with hmem | hmem
  · have hless := hbefore _ hmem
    obtain ⟨-, j, hoffer⟩ := mem_storesIn.mp (by rw [hlast]; simp : e ∈ storesIn since a)
    have hj : j ≠ id := by
      rintro rfl
      obtain ⟨rest, -, hnodup⟩ := h.reports hs
      have hdeeds : ∀ {deed}, (j, deed) ∈ since →
          deed ∈ deedsIn middle j ++ .calls hub called :: rest := by
        intro deed hmem
        exact List.mem_append_left _ (mem_deedsIn.mpr (by simp [hmiddle, hmem]))
      have hsame := offers_unique hnodup (hdeeds hoffer) (hdeeds hoffers)
      rw [hsame] at hless
      exact UInt64.lt_irrefl _ hless
    obtain ⟨written, hjob, hreceives⟩ := h.brought hs hmiddle hj hoffer
    exact ⟨revision, e, hreserves, hget, UInt64.le_of_lt hless, .inr ⟨j, written, hjob, hreceives, hoffer⟩⟩
  · obtain rfl := List.mem_singleton.mp hmem
    exact ⟨revision, _, hreserves, hget, UInt64.le_refl _, .inl rfl⟩

end CallsAt

-- In every run, whenever a refresh calls listeners, either it has just settled the last address of
-- each of them, or it is being given up. What a listener finds cached at an address of its own that
-- the refresh has read is what was read there, or what a write has brought that was acknowledged since,
-- and never anything older. Listeners that are called before it make no difference.
theorem seen_when_called (hs : s.Reachable) {listeners called : List HubListener}
    {middle : List (TaskId × Deed)} {hub : Hub} (h : CallsAt s id listeners middle hub called) :
    ((∃ a, (deedsIn middle id).getLast? = some (.settles a) ∧
        ∀ l ∈ called, l ∈ listeners ∧ a ∈ l.interest ∧
          ∀ b ∈ l.interest, b ∈ settledIn (deedsIn middle id)) ∨
      (deedsIn middle id).getLast? = some .abandons ∧ ∀ l ∈ called, l ∈ listeners) ∧
    ((revisionsIn s.log).length < 2 ^ 64 → ∀ earlier l later, called = earlier ++ l :: later →
      ∀ a ∈ l.interest, ∀ before value since,
        middle = before ++ (id, .hears a (.ok value)) :: since →
          UpToDate s id (hub.callEach earlier).cache a value before since) := by
  refine ⟨h.completes hs, ?_⟩
  intro hcount earlier l later _ a _ before value since hmiddle
  rw [(Hub.kept_callEach hub earlier).cache]
  exact h.upToDate hs hcount hmiddle

-- The first address of a refresh is written while the refresh waits for the second one. The listener
-- is called after both of them, and finds what was written.
theorem seen_when_called_crossing :
    ∃ hub listeners called, CallsAt crossed 0 listeners ((crossed.entries.drop 1).take 16) hub called ∧
      called.map (·.handle) = [.named "first"] ∧ hub.cache.get? 1 = some (.integer 7) ∧
      UpToDate crossed 0 hub.cache 1 (.integer 1) ((crossed.entries.drop 1).take 2)
        ((crossed.entries.drop 4).take 13) := by
  have hs : crossed.Reachable := ⟨_, _, _, _, rfl⟩
  have hplain : ((crossed.entries.drop 1).take 16).all (·.2.isPlain) = true := by decide
  have hcalls : ∃ hub listeners called,
      CallsAt crossed 0 listeners ((crossed.entries.drop 1).take 16) hub called ∧
        called.map (·.handle) = [.named "first"] ∧ hub.cache.get? 1 = some (.integer 7) ∧
        ∃ l, called = [] ++ l :: [] ∧ 1 ∈ l.interest := by
    refine ⟨_, _, _, ⟨⟨[], crossed.entries.drop 18, rfl⟩, ?_⟩, rfl, rfl, _, rfl, ?_⟩
    · intro result hmem
      cases List.all_eq_true.mp hplain _ hmem
    · exact AddressSet.mem_ofList.mpr (by simp)
  obtain ⟨hub, listeners, called, hcalls, hhandles, hvalue, l, hl, hinterest⟩ := hcalls
  have hcount : (revisionsIn crossed.log).length < 2 ^ 64 := by decide
  exact ⟨hub, listeners, called, hcalls, hhandles, hvalue,
    (seen_when_called hs hcalls).2 hcount [] l [] hl 1 hinterest _ _ _ rfl⟩

end System

end CoilHub
