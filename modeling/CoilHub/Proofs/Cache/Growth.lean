import CoilHub.Proofs.Cache.Revisions
import CoilHub.Proofs.Refresh.Verdicts

namespace CoilHub.System

variable {s s' t : System} {id : TaskId} {cache next : Cache} {a : Address} {result : FetchResult CoilValue}
  {deeds more offers : List Deed}

-- From one state to a later one this was done, and the addresses of its answers are all that have been
-- added to the cached ones.
structure Learns (s s' : System) (deeds : List Deed) : Prop where
  log : s'.log = s.log ++ deeds
  cached : ∀ a, s'.hub.cache.contains a = true ↔
    s.hub.cache.contains a = true ∨ answersIn deeds a ≠ []

theorem Learns.refl (s : System) : Learns s s [] where
  log := (List.append_nil _).symm
  cached := fun _ => by simp [answersIn]

theorem Learns.trans (h : Learns s s' deeds) (h' : Learns s' t more) : Learns s t (deeds ++ more) where
  log := by rw [h'.log, h.log, List.append_assoc]
  cached := by
    intro a
    have hmore : answersIn (deeds ++ more) a ≠ [] ↔ answersIn deeds a ≠ [] ∨ answersIn more a ≠ [] := by
      rw [answersIn_append, ne_eq, List.append_eq_nil_iff, not_and_or]
    rw [h'.cached, h.cached, hmore, or_assoc]

theorem contains_of_entries (h : next.entries = cache.entries) (a : Address) :
    next.contains a = cache.contains a := by
  unfold Cache.contains
  rw [h]

-- A value that is refused finds its address cached already.
theorem Obtains.contains_iff {revision : UInt64} {stored : Option CachedValue}
    (h : Obtains cache revision a result next offers stored) (b : Address) :
    next.contains b = true ↔
      cache.contains b = true ∨ (if a = b then result.toOption.toList else []) ≠ [] := by
  cases h with
  | missing c => by_cases hb : a = b <;> simp [Except.toOption]
  | @stored value _ hstore =>
      rw [Cache.contains_eq, Cache.contains_eq, Cache.get?_of_store? hstore]
      by_cases hb : a = b
      · simp [hb, Except.toOption]
      · simp [hb, Ne.symm hb]
  | @refused value hstore =>
      have hcached : cache.contains a = true := by
        unfold Cache.store? at hstore
        unfold Cache.contains AddressMap.contains
        cases he : cache.entries.get? a with
        | none => simp [he] at hstore
        | some entry => rfl
      by_cases hb : a = b
      · subst hb
        simp [hcached]
      · simp [hb]

section

variable {stage : Stage} {cycleLock transport : Lock} {success : Bool}
  (h : Turned id s stage cycleLock transport cache success deeds s')
include h

theorem Turned.learns_nothing (hcache : cache.entries = s.hub.cache.entries)
    (hanswers : ∀ a, answersIn deeds a = []) : Learns s s' deeds where
  log := h.log_eq
  cached := by
    intro a
    rw [h.cache_eq, contains_of_entries hcache, hanswers a]
    simp

theorem Turned.learns {revision : UInt64} {stored : Option CachedValue}
    (hobtains : Obtains s.hub.cache revision a result cache offers stored)
    (hanswers : ∀ b, answersIn deeds b = if a = b then result.toOption.toList else []) :
    Learns s s' deeds where
  log := h.log_eq
  cached := by
    intro b
    rw [h.cache_eq, hobtains.contains_iff, hanswers]

end

theorem Turn.learns (ht : Turn id s s') : ∃ deeds, Learns s s' deeds := by
  cases ht with
  | stays hs _ => exact ⟨[], hs ▸ .refl s⟩
  | queues hjob hr hst hfrom h => exact ⟨_, h.learns_nothing rfl fun _ => rfl⟩
  | queuesWrite hjob hst hc h => exact ⟨_, h.learns_nothing rfl fun _ => rfl⟩
  | declinesWrite hjob hst hc h => exact ⟨_, h.learns_nothing rfl fun _ => rfl⟩
  | rests hjob hw hst hfrom h => exact ⟨_, h.learns_nothing rfl fun _ => rfl⟩
  | ends hjob hother hst hfrom h => exact ⟨_, h.learns_nothing rfl fun _ => rfl⟩
  | declines hjob hst hl hc h => exact ⟨_, h.learns_nothing rfl fun _ => rfl⟩
  | beginsNothing hjob hst hl hc hp h => exact ⟨_, h.learns_nothing rfl fun _ => rfl⟩
  | begins hst hl hc hp h => exact ⟨_, h.learns_nothing rfl fun _ => rfl⟩
  | asks hst hp hl hc h => exact ⟨_, h.learns_nothing rfl fun _ => rfl⟩
  | withdraws hjob hst hp hl hc hhub h => exact ⟨_, h.learns_nothing rfl fun _ => rfl⟩
  | @asksAgain cycle a watchers rest revision attempt due due' result hst hp hc hresult h =>
      refine ⟨_, h.learns_nothing rfl fun b => ?_⟩
      cases result with
      | ok value => cases hresult
      | error e => rfl
  | settles hst hp hrest hc hobtains hhub h =>
      exact ⟨_, h.learns hobtains fun b => answersIn_hears hobtains b rfl⟩
  | settlesLast hjob hst hp hc hobtains hhub h =>
      exact ⟨_, h.learns hobtains fun b => answersIn_hears hobtains b rfl⟩
  | givesUp hjob hst hp hc hhub h => exact ⟨_, h.learns_nothing rfl fun _ => rfl⟩
  | @fails job cycle a watchers rest revision attempt due e hub last hjob hst hp hc hresult hfound
      hhub hlast h =>
      refine ⟨_, h.learns_nothing rfl fun b => ?_⟩
      rcases toldAfter_calls job (.error (.refreshFailed a e)) last with htold | ⟨told, ls, htold⟩ <;>
        rw [htold] <;> rfl
  | sends hst hl h => exact ⟨_, h.learns_nothing rfl fun _ => rfl⟩
  | refused hst h => exact ⟨_, h.learns_nothing rfl fun _ => rfl⟩
  | @acknowledged a value ack revision hadData cache offers stored hub hst hobtains hhub h =>
      refine ⟨_, h.learns hobtains fun b => ?_⟩
      cases hobtains <;> cases hadData <;> by_cases hb : a = b <;>
        simp [answersIn, hb, Except.toOption]

theorem move_learns (s : System) (m : Move) : ∃ deeds, Learns s (s.move m) deeds := by
  rcases move_cases s m with ⟨id, -, ht⟩ | ⟨-, ha⟩
  · exact ht.learns
  · refine ⟨[], by rw [List.append_nil, log, log, ha.journal], fun a => ?_⟩
    rw [contains_of_entries (congrArg Cache.entries ha.cache)]
    simp [answersIn]

-- The induction is on the moves: what one of them leaves cached is there for the next one.
theorem play_learns (s : System) (moves : List Move) : ∃ deeds, Learns s (s.play moves) deeds := by
  induction moves generalizing s with
  | nil => exact ⟨[], .refl s⟩
  | cons m rest ih =>
      obtain ⟨first, hfirst⟩ := move_learns s m
      obtain ⟨later, hlater⟩ := ih (s.move m)
      exact ⟨first ++ later, hfirst.trans hlater⟩

theorem contains_play {a : Address} (h : s.hub.cache.contains a = true) (moves : List Move) :
    (s.play moves).hub.cache.contains a = true := by
  obtain ⟨deeds, hlearns⟩ := play_learns s moves
  exact (hlearns.cached a).mpr (.inl h)

-- Some refresh read a value at the address, or a write of it was acknowledged.
def HasAnswer (s : System) (a : Address) : Prop :=
  ∃ id value, (id, .hears a (.ok value)) ∈ s.entries ∨ (id, .receives a (.ok value)) ∈ s.entries

theorem mem_answersIn {value : CoilValue} :
    value ∈ answersIn deeds a ↔ .hears a (.ok value) ∈ deeds ∨ .receives a (.ok value) ∈ deeds := by
  unfold answersIn
  rw [List.mem_filterMap]
  constructor
  · rintro ⟨deed, hmem, hdeed⟩
    split at hdeed
    case h_1 =>
      split at hdeed
      case isTrue hb =>
        cases hdeed
        exact .inl (hb ▸ hmem)
      case isFalse => cases hdeed
    case h_2 =>
      split at hdeed
      case isTrue hb =>
        cases hdeed
        exact .inr (hb ▸ hmem)
      case isFalse => cases hdeed
    case h_3 => cases hdeed
  · rintro (hmem | hmem)
    · exact ⟨_, hmem, if_pos rfl⟩
    · exact ⟨_, hmem, if_pos rfl⟩

theorem mem_log_iff {deed : Deed} : deed ∈ s.log ↔ ∃ id, (id, deed) ∈ s.entries := by
  simp [log, entries]

theorem answersIn_ne_nil_iff : answersIn s.log a ≠ [] ↔ s.HasAnswer a := by
  constructor
  · intro hne
    obtain ⟨value, hmem⟩ := List.exists_mem_of_ne_nil _ hne
    rcases mem_answersIn.mp hmem with hmem | hmem
    · obtain ⟨id, hid⟩ := mem_log_iff.mp hmem
      exact ⟨id, value, .inl hid⟩
    · obtain ⟨id, hid⟩ := mem_log_iff.mp hmem
      exact ⟨id, value, .inr hid⟩
  · rintro ⟨id, value, hmem⟩
    apply List.ne_nil_of_mem (a := value)
    rw [mem_answersIn, mem_log_iff, mem_log_iff]
    exact hmem.imp (fun h => ⟨id, h⟩) fun h => ⟨id, h⟩

theorem Reachable.cached_iff (hs : s.Reachable) (a : Address) :
    s.hub.cache.contains a = true ↔ s.HasAnswer a := by
  obtain ⟨settings, model, gateway, moves, rfl⟩ := hs
  obtain ⟨deeds, hlearns⟩ := play_learns (fresh settings model gateway) moves
  have hlog : ((fresh settings model gateway).play moves).log = deeds := hlearns.log
  have hnone : (fresh settings model gateway).hub.cache.contains a = false := rfl
  rw [hlearns.cached, hnone, ← answersIn_ne_nil_iff, hlog]
  simp

-- The flag is the outcome of the latest cycle that was not cancelled, and up if there was none.
theorem Reachable.success_eq (hs : s.Reachable) : s.hub.lastSuccess = verdict s.keeps s.entries := by
  obtain ⟨settings, model, gateway, moves, rfl⟩ := hs
  have hstart : Announces ((fresh settings model gateway).play moves).keeps
      (fresh settings model gateway).entries (fresh settings model gateway).hub.lastSuccess 0 :=
    announces_nil
  have hend := hstart.play ⟨settings, model, gateway, [], rfl⟩ moves (by
    intro id job hjob
    rw [keeps, hjob]
    rfl)
  exact hend.flag

-- An entity is available just if the latest cycle that was not cancelled is a success, or there was
-- none, and its address has ever been answered with a value. Nothing that happens later, to the cycles,
-- the coils, the listeners or the hub as a whole, makes a cached address uncached.
theorem availability_of_history (hs : s.Reachable) (e : Entity) :
    ((e.view s.hub).available = true ↔
        verdict s.keeps s.entries = true ∧ s.HasAnswer e.coil.address) ∧
      ∀ moves a, s.hub.cache.contains a = true → (s.play moves).hub.cache.contains a = true := by
  refine ⟨?_, fun moves a hcached => contains_play hcached moves⟩
  have hview : (e.view s.hub).available = (s.hub.lastSuccess && s.hub.cache.contains e.coil.address) :=
    rfl
  rw [hview, Bool.and_eq_true, hs.success_eq, hs.cached_iff]

-- The coil has been read for somebody who left. The next cycle, for the entity, found the coil gone, which
-- is no failure. Then the entity left too and the hub was shut down.
def departed : System :=
  (fresh {} .f1155 { source := .echo }).play
    ([.act (.listen "early" [1] []), .spawn .cycle] ++ .replicate 4 (.step 0) ++
      [.act (.unlisten "early"), .attach thermometer.coil, .gateway (faulty (.notFound 1)),
        .spawn .cycle] ++ .replicate 4 (.step 1) ++
      [.detach thermometer, .spawn .shutdown, .step 2])

theorem availability_of_history_departed :
    departed.Reachable ∧ (thermometer.view departed.hub).available = true ∧
      ∀ moves, (departed.play moves).hub.cache.contains 1 = true := by
  have hs : departed.Reachable := ⟨_, _, _, _, rfl⟩
  have hanswer : departed.HasAnswer 1 := ⟨0, .integer 1, .inl (List.mem_of_getElem? (i := 3) rfl)⟩
  obtain ⟨havailable, hstays⟩ := availability_of_history hs thermometer
  exact ⟨hs, havailable.mpr ⟨rfl, hanswer⟩, fun moves => hstays moves 1 rfl⟩

end CoilHub.System
