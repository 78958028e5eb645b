import CoilHub.Proofs.Interleaving.Locks
import Mathlib.Algebra.Group.Nat.Defs

namespace CoilHub

namespace Cache

theorem entries_of_store? {c d : Cache} {revision : UInt64} {a : Address} {value : CoilValue}
    (h : c.store? revision a value = some d) :
    d.entries = c.entries.insert a { revision, address := a, value } := by
  unfold store? at h
  grind

theorem store?_of_newer {c : Cache} {revision : UInt64} {a : Address} (value : CoilValue)
    (h : ∀ e, c.entries.get? a = some e → e.revision < revision) :
    c.store? revision a value =
      some { c with entries := c.entries.insert a { revision, address := a, value } } := by
  unfold store?
  cases he : c.entries.get? a with
  | none => rfl
  | some e =>
      have hlt := h e he
      have hle : ¬revision ≤ e.revision := by
        rw [UInt64.le_iff_toNat_le]
        rw [UInt64.lt_iff_toNat_lt] at hlt
        omega
      simp [hle]

end Cache

def revisionsIn (deeds : List Deed) : List UInt64 :=
  deeds.filterMap fun
    | .reserves revision => some revision
    | _ => none

-- The revisions of the values that are offered to the cache, and whether the cache stored them.
def offersIn (deeds : List Deed) : List (UInt64 × Bool) :=
  deeds.filterMap fun
    | .offers revision _ _ stored => some (revision, stored)
    | _ => none

def answersIn (deeds : List Deed) (a : Address) : List CoilValue :=
  deeds.filterMap fun
    | .hears b (.ok value) | .receives b (.ok value) => if b = a then some value else none
    | _ => none

@[simp] theorem revisionsIn_append (deeds more : List Deed) :
    revisionsIn (deeds ++ more) = revisionsIn deeds ++ revisionsIn more := List.filterMap_append

@[simp] theorem offersIn_append (deeds more : List Deed) :
    offersIn (deeds ++ more) = offersIn deeds ++ offersIn more := List.filterMap_append

@[simp] theorem answersIn_append (deeds more : List Deed) (a : Address) :
    answersIn (deeds ++ more) a = answersIn deeds a ++ answersIn more a := List.filterMap_append

-- The revision of the call of the pump that a task makes.
def Stage.revision? : Stage → Option UInt64
  | .reading _ revision _ _ | .writing _ _ revision _ => some revision
  | _ => none

namespace System

structure Numbered (s : System) : Prop where
  issued : s.hub.cache.issued.toNat = (revisionsIn s.log).length
  offered : ∀ offer ∈ offersIn s.log, offer.1 ≤ s.hub.cache.issued
  -- a call of the pump has the latest revision, and nothing was offered under it yet
  call : ∀ id stage revision, s.stage? id = some stage → stage.revision? = some revision →
    revision = s.hub.cache.issued ∧ ∀ offer ∈ offersIn s.log, offer.1 < revision
  entries : ∀ a e, s.hub.cache.entries.get? a = some e → (e.revision, true) ∈ offersIn s.log
  stored : ∀ offer ∈ offersIn s.log, offer.2 = true
  rising : (offersIn s.log).Pairwise fun earlier later => earlier.1 < later.1
  latest : ∀ a, s.hub.cache.get? a = (answersIn s.log a).getLast?

theorem numbered_fresh (settings : HubConfig) (model : Model) (gateway : Gateway) :
    (fresh settings model gateway).Numbered where
  issued := rfl
  offered := nofun
  call := by simp [fresh, stage?]
  entries := by simp [fresh]
  stored := nofun
  rising := .nil
  latest := fun _ => rfl

variable {s s' : System} {id : TaskId}

-- Whoever holds the transport is the only one that can call the pump.
theorem Orderly.quiet_others (ho : s.Orderly) (hl : s.transport.holder = some id) (j : TaskId)
    (stage : Stage) (hj : j ≠ id) (hst : s.stage? j = some stage) : stage.revision? = none := by
  cases hr : stage.revision? with
  | none => rfl
  | some revision =>
      have hhas : s.isAt Stage.hasTransport j = true := by
        cases stage <;> simp [Stage.revision?] at hr <;> simp [isAt, hst, Stage.hasTransport]
      have heq := ho.transport.holder j hhas
      rw [hl] at heq
      exact absurd (Option.some.inj heq).symm hj

theorem revision?_stageAfter (job : Job) (result : RefreshResult) :
    (stageAfter job result).revision? = none := by
  rcases stageAfter_cases job result with ⟨outcome, h⟩ | ⟨-, h⟩ <;> rw [h] <;> rfl

-- A read that was answered adds a value of its address, unless it found nothing there.
theorem answersIn_hears {cache next : Cache} {revision : UInt64} {a : Address}
    {result : FetchResult CoilValue} {offers more : List Deed} {stored : Option CachedValue}
    (hobtains : Obtains cache revision a result next offers stored) (b : Address)
    (hmore : answersIn more b = []) :
    answersIn (.hears a result :: offers ++ more) b =
      if a = b then result.toOption.toList else [] := by
  rw [answersIn_append, hmore, List.append_nil]
  by_cases hb : a = b
  · cases hobtains <;> simp [answersIn, hb, Except.toOption]
  · cases hobtains <;> simp [answersIn, hb]

namespace Numbered

variable (hn : s.Numbered) {next stage : Stage} {cycleLock transport : Lock} {success : Bool}
  {deeds : List Deed}
include hn

theorem silent
    (h : Turned id s next cycleLock transport s.hub.cache success deeds s')
    (hst : s.stage? id = some stage)
    (hcall : next.revision? = none ∨ next.revision? = stage.revision?)
    (hrevisions : revisionsIn deeds = []) (hoffers : offersIn deeds = [])
    (hanswers : ∀ a, answersIn deeds a = []) : s'.Numbered := by
  have hcache : s'.hub.cache = s.hub.cache := h.cache_eq
  have hoffersIn : offersIn s'.log = offersIn s.log := by simp [h.log_eq, hoffers]
  refine ⟨?_, ?_, ?_, ?_, ?_, ?_, ?_⟩
  · rw [hcache, h.log_eq, revisionsIn_append, hrevisions, List.append_nil]
    exact hn.issued
  · rw [hcache, hoffersIn]
    exact hn.offered
  · intro j stage' revision hj hr
    rw [hcache, hoffersIn]
    by_cases heq : j = id
    · subst heq
      rw [h.stage] at hj
      cases hj
      rcases hcall with hnone | hsame
      · rw [hnone] at hr
        cases hr
      · rw [hsame] at hr
        exact hn.call j stage revision hst hr
    · rw [h.others j heq] at hj
      exact hn.call j stage' revision hj hr
  · rw [hcache, hoffersIn]
    exact hn.entries
  · rw [hoffersIn]
    exact hn.stored
  · rw [hoffersIn]
    exact hn.rising
  · intro a
    rw [hcache, h.log_eq, answersIn_append, hanswers a, List.append_nil]
    exact hn.latest a

theorem reserves (ho : s.Orderly)
    (h : Turned id s next cycleLock transport s.hub.cache.nextRevision.2 success deeds s')
    (hl : s.transport.holder = some id) (hst : s.stage? id = some stage)
    (hcall : ∀ revision, next.revision? = some revision → revision = s.hub.cache.nextRevision.1)
    (hrevisions : revisionsIn deeds = [s.hub.cache.nextRevision.1]) (hoffers : offersIn deeds = [])
    (hanswers : ∀ a, answersIn deeds a = []) (hcount : (revisionsIn s'.log).length < 2 ^ 64) :
    s'.Numbered := by
  have hcache : s'.hub.cache = s.hub.cache.nextRevision.2 := h.cache_eq
  have hoffersIn : offersIn s'.log = offersIn s.log := by simp [h.log_eq, hoffers]
  have hlength : (revisionsIn s'.log).length = (revisionsIn s.log).length + 1 := by
    rw [h.log_eq, revisionsIn_append, hrevisions, List.length_append, List.length_singleton]
  have hissued : s.hub.cache.nextRevision.1.toNat = s.hub.cache.issued.toNat + 1 := by
    have hold := hn.issued
    show (s.hub.cache.issued + 1).toNat = _
    rw [UInt64.toNat_add, UInt64.toNat_one]
    omega
  have hless : ∀ offer ∈ offersIn s.log, offer.1 < s.hub.cache.nextRevision.1 := by
    intro offer hoffer
    have hle := hn.offered offer hoffer
    rw [UInt64.le_iff_toNat_le] at hle
    rw [UInt64.lt_iff_toNat_lt]
    omega
  refine ⟨?_, ?_, ?_, ?_, ?_, ?_, ?_⟩
  · rw [hcache, hlength, ← hn.issued]
    exact hissued
  · rw [hcache, hoffersIn]
    intro offer hoffer
    have hlt := hless offer hoffer
    rw [UInt64.lt_iff_toNat_lt] at hlt
    exact UInt64.le_iff_toNat_le.mpr (Nat.le_of_lt hlt)
  · intro j stage' revision hj hr
    rw [hcache, hoffersIn]
    by_cases heq : j = id
    · subst heq
      rw [h.stage] at hj
      cases hj
      rw [hcall revision hr]
      exact ⟨rfl, hless⟩
    · rw [h.others j heq] at hj
      have hquiet := ho.quiet_others hl j stage' heq hj
      rw [hquiet] at hr
      cases hr
  · rw [hcache, hoffersIn]
    exact hn.entries
  · rw [hoffersIn]
    exact hn.stored
  · rw [hoffersIn]
    exact hn.rising
  · intro a
    rw [hcache, h.log_eq, answersIn_append, hanswers a, List.append_nil]
    exact hn.latest a

-- A value that is stored becomes the latest one of its address.
theorem stores (ho : s.Orderly) {revision : UInt64} {a : Address} {value : CoilValue}
    (h : Turned id s next cycleLock transport
      { s.hub.cache with
        entries := s.hub.cache.entries.insert a { revision, address := a, value } } success deeds
      s')
    (hl : s.transport.holder = some id) (hst : s.stage? id = some stage)
    (hr : stage.revision? = some revision) (hnext : next.revision? = none)
    (hrevisions : revisionsIn deeds = []) (hoffers : offersIn deeds = [(revision, true)])
    (hanswers : ∀ b, answersIn deeds b = if a = b then [value] else []) : s'.Numbered := by
  obtain ⟨hlatest, hless⟩ := hn.call id stage revision hst hr
  have hcache := h.cache_eq
  have hoffersIn : offersIn s'.log = offersIn s.log ++ [(revision, true)] := by
    rw [h.log_eq, offersIn_append, hoffers]
  refine ⟨?_, ?_, ?_, ?_, ?_, ?_, ?_⟩
  · rw [hcache, h.log_eq, revisionsIn_append, hrevisions, List.append_nil]
    exact hn.issued
  · rw [hcache, hoffersIn]
    intro offer hoffer
    rcases List.mem_append.mp hoffer with hold | hnew
    · exact hn.offered offer hold
    · rw [List.mem_singleton.mp hnew, hlatest]
      exact UInt64.le_refl _
  · intro j stage' revision' hj hr'
    have hquiet : stage'.revision? = none := by
      by_cases heq : j = id
      · subst heq
        rw [h.stage] at hj
        cases hj
        exact hnext
      · rw [h.others j heq] at hj
        exact ho.quiet_others hl j stage' heq hj
    rw [hquiet] at hr'
    cases hr'
  · intro b e he
    rw [hcache, AddressMap.get?_insert] at he
    rw [hoffersIn]
    by_cases hb : b = a
    · rw [if_pos hb] at he
      cases he
      simp
    · rw [if_neg hb] at he
      exact List.mem_append_left _ (hn.entries b e he)
  · rw [hoffersIn]
    intro offer hoffer
    rcases List.mem_append.mp hoffer with hold | hnew
    · exact hn.stored offer hold
    · rw [List.mem_singleton.mp hnew]
  · rw [hoffersIn]
    refine List.pairwise_append.mpr ⟨hn.rising, by simp, ?_⟩
    intro offer hoffer last hlast
    rw [List.mem_singleton.mp hlast]
    exact hless offer hoffer
  · intro b
    have hold := hn.latest b
    unfold Cache.get? at hold ⊢
    rw [hcache, AddressMap.get?_insert, h.log_eq, answersIn_append, hanswers b]
    by_cases hb : b = a
    · simp [hb]
    · simp [hb, Ne.symm hb, hold]

-- An answer to a call is stored if there is anything to store.
theorem answered (ho : s.Orderly) {cache : Cache} {revision : UInt64} {a : Address}
    {result : FetchResult CoilValue} {offers : List Deed} {stored : Option CachedValue}
    (h : Turned id s next cycleLock transport cache success deeds s')
    (hl : s.transport.holder = some id) (hst : s.stage? id = some stage)
    (hr : stage.revision? = some revision) (hnext : next.revision? = none)
    (hobtains : Obtains s.hub.cache revision a result cache offers stored)
    (hrevisions : revisionsIn deeds = []) (hoffers : offersIn deeds = offersIn offers)
    (hanswers : ∀ b, answersIn deeds b = if a = b then result.toOption.toList else []) :
    s'.Numbered := by
  have hless := (hn.call id stage revision hst hr).2
  have hnewer : ∀ e, s.hub.cache.entries.get? a = some e → e.revision < revision :=
    fun e he => hless _ (hn.entries a e he)
  cases hobtains with
  | missing b =>
      refine hn.silent h hst (.inl hnext) hrevisions hoffers fun c => ?_
      simpa [Except.toOption] using hanswers c
  | refused hstore =>
      rw [Cache.store?_of_newer _ hnewer] at hstore
      cases hstore
  | stored hstore =>
      rw [Cache.store?_of_newer _ hnewer] at hstore
      obtain rfl := Option.some.inj hstore
      exact hn.stores ho h hl hst hr hnext hrevisions hoffers hanswers

theorem turn (ho : s.Orderly) (ht : Turn id s s')
    (hcount : (revisionsIn s'.log).length < 2 ^ 64) : s'.Numbered := by
  cases ht with
  | stays hs _ => exact hs ▸ hn
  | queues hjob hr hst hfrom h => exact hn.silent h hst (.inl rfl) rfl rfl fun _ => rfl
  | queuesWrite hjob hst hc h => exact hn.silent h hst (.inl rfl) rfl rfl fun _ => rfl
  | declinesWrite hjob hst hc h => exact hn.silent h hst (.inl rfl) rfl rfl fun _ => rfl
  | rests hjob hw hst hfrom h => exact hn.silent h hst (.inl rfl) rfl rfl fun _ => rfl
  | ends hjob hother hst hfrom h => exact hn.silent h hst (.inl rfl) rfl rfl fun _ => rfl
  | declines hjob hst hl hc h =>
      exact hn.silent h hst (.inl (revision?_stageAfter _ _)) rfl rfl fun _ => rfl
  | beginsNothing hjob hst hl hc hp h =>
      exact hn.silent h hst (.inl (revision?_stageAfter _ _)) rfl rfl fun _ => rfl
  | begins hst hl hc hp h => exact hn.silent h hst (.inl rfl) rfl rfl fun _ => rfl
  | asks hst hp hl hc h =>
      refine hn.reserves ho h hl hst ?_ rfl rfl (fun _ => rfl) hcount
      intro revision hr
      exact (Option.some.inj hr).symm
  | withdraws hjob hst hp hl hc hhub h =>
      refine hn.reserves ho h hl hst ?_ rfl rfl (fun _ => rfl) hcount
      intro revision hr
      rw [revision?_stageAfter] at hr
      cases hr
  | asksAgain hst hp hc hresult h =>
      rename_i result
      refine hn.silent h hst (.inr rfl) rfl rfl fun b => ?_
      cases result with
      | ok value => cases hresult
      | error e => rfl
  | settles hst hp hrest hc hobtains hhub h =>
      refine hn.answered ho h (ho.holder_of_reading hst).2 hst rfl rfl hobtains ?_ ?_ ?_
      · cases hobtains <;> rfl
      · cases hobtains <;> rfl
      · exact fun b => answersIn_hears hobtains b rfl
  | settlesLast hjob hst hp hc hobtains hhub h =>
      refine hn.answered ho h (ho.holder_of_reading hst).2 hst rfl (revision?_stageAfter _ _)
        hobtains ?_ ?_ ?_
      · cases hobtains <;> rfl
      · cases hobtains <;> rfl
      · exact fun b => answersIn_hears hobtains b rfl
  | givesUp hjob hst hp hc hhub h =>
      exact hn.silent h hst (.inl (revision?_stageAfter _ _)) rfl rfl fun _ => rfl
  | @fails job cycle a watchers rest revision attempt due e hub last hjob hst hp hc hresult hfound
      hhub hlast h =>
      have htold := toldAfter_calls job (.error (.refreshFailed a e)) last
      refine hn.silent h hst (.inl (revision?_stageAfter _ _)) ?_ ?_ fun b => ?_
      · rcases htold with htold | ⟨hub, ls, htold⟩ <;> rw [htold] <;> rfl
      · rcases htold with htold | ⟨hub, ls, htold⟩ <;> rw [htold] <;> rfl
      · rcases htold with htold | ⟨hub, ls, htold⟩ <;> rw [htold] <;> rfl
  | sends hst hl h =>
      refine hn.reserves ho h hl hst ?_ rfl rfl (fun _ => rfl) hcount
      intro revision hr
      exact (Option.some.inj hr).symm
  | refused hst h => exact hn.silent h hst (.inl rfl) rfl rfl fun _ => rfl
  | @acknowledged a value ack revision hadData cache offers stored hub hst hobtains hhub h =>
      refine hn.answered ho h (ho.holder_of_writing hst) hst rfl rfl hobtains ?_ ?_ fun b => ?_
      · cases hobtains <;> cases hadData <;> rfl
      · cases hobtains <;> cases hadData <;> rfl
      · by_cases hb : a = b
        · cases hobtains <;> cases hadData <;> simp [answersIn, hb, Except.toOption]
        · cases hobtains <;> cases hadData <;> simp [answersIn, hb]

theorem aside (h : Aside s s') : s'.Numbered := by
  have hlog : s'.log = s.log := log_of_journal_eq h.journal
  refine ⟨?_, ?_, ?_, ?_, ?_, ?_, ?_⟩
  · rw [h.cache, hlog]
    exact hn.issued
  · rw [h.cache, hlog]
    exact hn.offered
  · intro j stage' revision hj hr
    rw [h.cache, hlog]
    rcases h.stages j with hs | ⟨-, hs⟩ | ⟨-, hs⟩
    · rw [hs] at hj
      exact hn.call j stage' revision hj hr
    · rw [hs] at hj
      cases hj
      cases hr
    · rw [hs] at hj
      cases hj
      cases hr
  · rw [h.cache, hlog]
    exact hn.entries
  · rw [hlog]
    exact hn.stored
  · rw [hlog]
    exact hn.rising
  · rw [h.cache, hlog]
    exact hn.latest

end Numbered

-- In every run with fewer than 2^64 calls of the pump, every value that is offered to the cache is
-- stored, each one under a higher revision than all before it, and what is cached for an address is
-- the value that was read or acknowledged last. All attempts at a read make one call, which counts
-- even if it is given up before the first of them.
theorem cache_latest {s : System} (hs : s.Reachable)
    (hcount : (revisionsIn s.log).length < 2 ^ 64) :
    (∀ offer ∈ offersIn s.log, offer.2 = true) ∧
    (offersIn s.log).Pairwise (fun earlier later => earlier.1 < later.1) ∧
    ∀ a, s.hub.cache.get? a = (answersIn s.log a).getLast? := by
  obtain ⟨settings, model, gateway, moves, rfl⟩ := hs
  have hboth := play_induction
    (P := fun s => s.Orderly ∧ ((revisionsIn s.log).length < 2 ^ 64 → s.Numbered)) ?_ moves
    ⟨orderly_start _, fun _ => numbered_fresh settings model gateway⟩
  · have hn := hboth.2 hcount
    exact ⟨hn.stored, hn.rising, hn.latest⟩
  · rintro s m ⟨ho, hn⟩
    refine ⟨orderly_move s m ho, fun hcount => ?_⟩
    obtain ⟨deeds, hlog⟩ := log_move s m
    have hbefore : (revisionsIn s.log).length < 2 ^ 64 := by
      rw [hlog, revisionsIn_append, List.length_append] at hcount
      omega
    rcases move_cases s m with ⟨id, -, ht⟩ | ⟨-, ha⟩
    · exact (hn hbefore).turn ho ht hcount
    · exact (hn hbefore).aside ha

-- A write waits for the transport while the same address is read.
def writeAfterRead : List Move :=
  [.act (.listen "first" [1] []), .spawn .refresh, .spawn (.write 1 (.integer 7)), .step 0, .step 0,
    .step 1, .step 0, .step 0, .step 1, .step 1]

theorem cache_latest_writeAfterRead :
    (revisionsIn ((fresh {} .f1255 { source := .echo }).play writeAfterRead).log).length < 2 ^ 64 ∧
      answersIn ((fresh {} .f1255 { source := .echo }).play writeAfterRead).log 1 =
        [.integer 1, .integer 7] ∧
      ∀ a, ((fresh {} .f1255 { source := .echo }).play writeAfterRead).hub.cache.get? a =
        (answersIn ((fresh {} .f1255 { source := .echo }).play writeAfterRead).log a).getLast? := by
  refine ⟨by decide, rfl, ?_⟩
  exact (cache_latest ⟨_, _, _, _, rfl⟩ (by decide)).2.2

end System

end CoilHub
