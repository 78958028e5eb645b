import CoilHub.Proofs.Refresh.Calls

namespace CoilHub

open CoilHub.System (Obtains)

def asksIn (deeds : List Deed) : List Address :=
  deeds.filterMap fun
    | .asks a => some a
    | _ => none

-- The reads that were answered, with their answers.
def hearsIn (deeds : List Deed) : List (Address × FetchResult CoilValue) :=
  deeds.filterMap fun
    | .hears a result => some (a, result)
    | _ => none

@[simp] theorem asksIn_append (deeds more : List Deed) :
    asksIn (deeds ++ more) = asksIn deeds ++ asksIn more := List.filterMap_append

@[simp] theorem hearsIn_append (deeds more : List Deed) :
    hearsIn (deeds ++ more) = hearsIn deeds ++ hearsIn more := List.filterMap_append

-- Attempts at an address that were answered by transient errors with these texts.
def failedReads (a : Address) (texts : List String) : List (Address × FetchResult CoilValue) :=
  texts.map fun text => (a, .error (.transient text))

-- All attempts at an address: those that failed for the time being, and the last one.
structure Block where
  address : Address
  transients : List String
  answer : FetchResult CoilValue

namespace Block

def size (b : Block) : Nat := b.transients.length + 1

def reads (b : Block) : List (Address × FetchResult CoilValue) :=
  failedReads b.address b.transients ++ [(b.address, b.answer)]

-- Whether the refresh goes on after this address.
def settles (b : Block) : Bool :=
  match b.answer with
  | .ok _ | .error (.notFound _) => true
  | _ => false

-- Whether the refresh fails at this address if there are at most `limit` attempts.
def fails (limit : Nat) (b : Block) : Bool :=
  match b.answer with
  | .error (.fatal _) => true
  | .error (.transient _) => b.size = limit
  | _ => false

theorem fst_reads (b : Block) : b.reads.map Prod.fst = .replicate b.size b.address := by
  have hconst : (Prod.fst ∘ fun text : String =>
      ((b.address, .error (.transient text)) : Address × FetchResult CoilValue)) =
        fun _ => b.address := rfl
  unfold reads failedReads size
  rw [List.map_append, List.map_map, hconst, List.map_const', List.replicate_succ']
  rfl

theorem fails_eq_false_of_settles {limit : Nat} {b : Block} (h : b.settles = true) :
    b.fails limit = false := by
  unfold settles at h
  unfold fails
  split at h
  · simp [*]
  · simp [*]
  · cases h

theorem settles_of_obtains {cache next : Cache} {revision : UInt64} {a : Address}
    {result : FetchResult CoilValue} {offers : List Deed} {stored : Option CachedValue}
    (h : Obtains cache revision a result next offers stored) (texts : List String) :
    settles { address := a, transients := texts, answer := result } = true := by
  cases h <;> rfl

end Block

-- The addresses that listeners watch, each once, in the order in which the listeners bring them up.
def watched (ls : List HubListener) : List Address := (ls.flatMap (·.interest.elems)).eraseDups

theorem addresses_eq_watched (ls : List HubListener) :
    (InterestMap.build (ls.map (·.interest))).addresses = watched ls := by
  rw [InterestMap.addresses_build, List.flatMap_map]
  rfl

-- The reads of a refresh that has come to its end.
structure Blockwise (limit : Nat) (r : Refresh) (blocks : List Block) : Prop where
  asks : asksIn r.deeds = blocks.flatMap fun b => .replicate b.size b.address
  hears : hearsIn r.deeds = blocks.flatMap (·.reads)
  addresses : blocks.map (·.address) <+: watched r.listeners
  size : ∀ b ∈ blocks, 1 ≤ b.size ∧ b.size ≤ limit
  -- there are no other ways for the attempts at an address to end
  answer : ∀ b ∈ blocks, b.settles = true ∨ b.fails limit = true
  goesOn : ∀ before b, blocks = before ++ [b] → b.settles = true →
    blocks.map (·.address) = watched r.listeners
  stops : ∀ before b after, blocks = before ++ b :: after → b.fails limit = true →
    after = [] ∧ ∃ e, b.answer = .error e ∧ r.result = .error (.refreshFailed b.address e)
  covers : (∃ values, r.result = .ok values) ↔
    blocks.map (·.address) = watched r.listeners ∧ ∀ b ∈ blocks, b.settles = true

-- The reads of a refresh that is under way: the blocks that have come to their end, the attempts
-- at the next address that have failed, and one that was not answered yet, if there is one.
structure Underway (limit : Nat) (ls : List HubListener) (deeds : List Deed) (blocks : List Block)
    (a : Address) (texts : List String) : Prop where
  asks : asksIn deeds = (blocks.flatMap (·.reads) ++ failedReads a texts).map Prod.fst ∧ texts = [] ∨
    asksIn deeds = (blocks.flatMap (·.reads) ++ failedReads a texts).map Prod.fst ++ [a]
  hears : hearsIn deeds = blocks.flatMap (·.reads) ++ failedReads a texts
  addresses : blocks.map (·.address) ++ [a] <+: watched ls
  size : texts.length < limit ∧ ∀ b ∈ blocks, b.size ≤ limit
  settled : ∀ b ∈ blocks, b.settles = true

-- The books of a refresh that has made so many attempts at the next address of its cycle. It makes
-- no attempt before it has the transport.
structure Attempts (limit : Nat) (deeds : List Deed) (cycle : HubCycle) (attempt : Nat)
    (blocks : List Block) (texts : List String) : Prop where
  addresses : blocks.map (·.address) = settledIn deeds
  settled : ∀ b ∈ blocks, b.settles = true
  size : ∀ b ∈ blocks, b.size ≤ limit
  count : texts.length = attempt - 1
  bound : attempt ≤ limit
  hears : ∀ a watchers rest, cycle.pending = (a, watchers) :: rest →
    hearsIn deeds = blocks.flatMap (·.reads) ++ failedReads a texts
  asks : ∀ a watchers rest, cycle.pending = (a, watchers) :: rest →
    asksIn deeds = (hearsIn deeds).map Prod.fst ++ if attempt = 0 then [] else [a]

def Stage.attempt : Stage → Nat
  | .reading _ _ attempt _ => attempt
  | _ => 0

-- What another attempt follows from.
theorem transient_of_conclude? {attempt left : Nat} {result : FetchResult CoilValue}
    (h : Retry.conclude? attempt left result = none) :
    0 < left ∧ ∃ text, result = .error (.transient text) := by
  cases result with
  | ok value => cases h
  | error e =>
      cases e with
      | notFound b => cases h
      | fatal text => cases h
      | transient text =>
          refine ⟨?_, text, rfl⟩
          by_contra hleft
          have hnone : left = 0 := by omega
          rw [hnone] at h
          cases h

-- What the end of a refresh follows from.
theorem fails_of_conclude? {attempt limit : Nat} {e : FetchError} {reason : RetryError}
    (a : Address) (texts : List String) (hbound : attempt ≤ limit)
    (htexts : texts.length + 1 = attempt) (hfound : ∀ b, e ≠ .notFound b)
    (h : Retry.conclude? attempt (limit - attempt) (.error e) =
      some (.error reason : Except RetryError CoilValue)) :
    Block.fails limit { address := a, transients := texts, answer := .error e } = true := by
  cases e with
  | notFound b => exact absurd rfl (hfound b)
  | fatal text => rfl
  | transient text =>
      have hleft : limit - attempt = 0 := by
        by_contra hleft
        simp [Retry.conclude?, FetchError.isTransient, hleft] at h
      have hsize : texts.length + 1 = limit := by omega
      simp [Block.fails, Block.size, hsize]

namespace Attempts

variable {limit : Nat} {deeds : List Deed} {cycle : HubCycle} {attempt : Nat} {blocks : List Block}
  {texts : List String}

theorem plan (limit : Nat) (ls : List HubListener) :
    Attempts limit [] (Cycle.plan ls) 0 [] [] where
  addresses := rfl
  settled := by simp
  size := by simp
  count := rfl
  bound := Nat.zero_le limit
  hears := fun _ _ _ _ => rfl
  asks := fun _ _ _ _ => rfl

variable (h : Attempts limit deeds cycle attempt blocks texts) {a : Address} {watchers : List Nat}
  {rest : List (Address × List Nat)} (hp : cycle.pending = (a, watchers) :: rest)
include h hp

theorem asksFirst (hlimit : 1 ≤ limit) (hattempt : attempt = 0) (revision : UInt64) :
    Attempts limit (deeds ++ [.reserves revision, .asks a]) cycle 1 blocks texts where
  addresses := by
    rw [settledIn_append, h.addresses]
    exact (List.append_nil _).symm
  settled := h.settled
  size := h.size
  count := by
    have htexts := h.count
    omega
  bound := hlimit
  hears := by
    intro b watchers' rest' hb
    rw [hearsIn_append, h.hears b watchers' rest' hb]
    exact List.append_nil _
  asks := by
    intro b watchers' rest' hb
    have hold := h.asks b watchers' rest' hb
    rw [hattempt, if_pos rfl, List.append_nil] at hold
    rw [hp] at hb
    cases hb
    rw [asksIn_append, hearsIn_append, hold]
    simp [asksIn, hearsIn]

theorem asksAgain (hattempt : 1 ≤ attempt) (hleft : 0 < limit - attempt) (text : String) :
    Attempts limit (deeds ++ [.hears a (.error (.transient text)), .asks a]) cycle (attempt + 1)
      blocks (texts ++ [text]) where
  addresses := by
    rw [settledIn_append, h.addresses]
    exact (List.append_nil _).symm
  settled := h.settled
  size := h.size
  count := by
    have htexts := h.count
    rw [List.length_append, List.length_singleton]
    omega
  bound := by omega
  hears := by
    intro b watchers' rest' hb
    have hold := h.hears b watchers' rest' hb
    rw [hp] at hb
    cases hb
    rw [hearsIn_append, hold]
    simp [hearsIn, failedReads]
  asks := by
    intro b watchers' rest' hb
    have hold := h.asks b watchers' rest' hb
    rw [if_neg (by omega)] at hold
    rw [hp] at hb
    cases hb
    rw [asksIn_append, hearsIn_append, hold]
    simp [asksIn, hearsIn]

-- An answer closes the block of its address.
theorem close_reads (hattempt : 1 ≤ attempt) (result : FetchResult CoilValue) (last : List Deed)
    (hhears : hearsIn last = [(a, result)]) (hasks : asksIn last = []) :
    hearsIn (deeds ++ last) = (blocks ++ [Block.mk a texts result]).flatMap (·.reads) ∧
      asksIn (deeds ++ last) = (hearsIn (deeds ++ last)).map Prod.fst := by
  have hold := h.hears a watchers rest hp
  have hasked := h.asks a watchers rest hp
  rw [if_neg (by omega)] at hasked
  constructor
  · rw [hearsIn_append, hold, hhears, List.flatMap_append]
    simp [Block.reads]
  · rw [asksIn_append, hearsIn_append, hasked, hasks, hhears]
    simp

omit hp in
theorem close_size (hattempt : 1 ≤ attempt) (result : FetchResult CoilValue) :
    ∀ b ∈ blocks ++ [⟨a, texts, result⟩], b.size ≤ limit := by
  intro b hb
  rcases List.mem_append.mp hb with hb | hb
  · exact h.size b hb
  · have htexts := h.count
    have hbound := h.bound
    rw [List.mem_singleton.mp hb]
    show texts.length + 1 ≤ limit
    omega

theorem settle {cache next : Cache} {revision : UInt64} {result : FetchResult CoilValue}
    {offers : List Deed} {stored : Option CachedValue} (hub : Hub) (hattempt : 1 ≤ attempt)
    (hobtains : Obtains cache revision a result next offers stored) :
    Attempts limit
      (deeds ++ (.hears a result :: offers ++ [.settles a, .calls hub (cycle.settle stored).2]))
      (cycle.settle stored).1 0 (blocks ++ [⟨a, texts, result⟩]) [] where
  addresses := by
    have hsettled : settledIn (.hears a result :: offers ++
        [.settles a, .calls hub (cycle.settle stored).2]) = [a] := by
      cases hobtains <;> rfl
    rw [List.map_append, h.addresses, settledIn_append, hsettled]
    rfl
  settled := by
    intro b hb
    rcases List.mem_append.mp hb with hb | hb
    · exact h.settled b hb
    · rw [List.mem_singleton.mp hb]
      exact Block.settles_of_obtains hobtains texts
  size := h.close_size hattempt result
  count := rfl
  bound := Nat.zero_le limit
  hears := by
    intro b watchers' rest' _
    rw [(h.close_reads hp hattempt result _ (by cases hobtains <;> rfl)
      (by cases hobtains <;> rfl)).1]
    exact (List.append_nil _).symm
  asks := by
    intro b watchers' rest' _
    rw [(h.close_reads hp hattempt result _ (by cases hobtains <;> rfl)
      (by cases hobtains <;> rfl)).2]
    exact (List.append_nil _).symm

end Attempts

-- The induction is on the course of the refresh. A read that is under way is at least the first
-- attempt.
theorem Going.attempts {limit : Nat} (hlimit : 1 ≤ limit) {ls : List HubListener}
    {deeds : List Deed} {stage : Stage} (h : Going limit ls deeds stage) {cycle : HubCycle}
    (hc : stage.cycle? = some cycle) :
    ((∃ revision attempt due, stage = .reading cycle revision attempt due) → 1 ≤ stage.attempt) ∧
      ∃ blocks texts, Attempts limit deeds cycle stage.attempt blocks texts := by
  induction h generalizing cycle with
  | begins hp =>
      cases hc
      exact ⟨by simp, [], [], .plan limit ls⟩
  | asks h hp ih =>
      cases hc
      obtain ⟨-, blocks, texts, hattempts⟩ := ih rfl
      exact ⟨fun _ => Nat.le_refl 1, blocks, texts, hattempts.asksFirst hp hlimit rfl _⟩
  | asksAgain h hp hresult ih =>
      cases hc
      obtain ⟨hpos, blocks, texts, hattempts⟩ := ih rfl
      obtain ⟨hleft, text, rfl⟩ := transient_of_conclude? hresult
      have hattempt := hpos ⟨_, _, _, rfl⟩
      exact ⟨fun _ => Nat.le_add_left 1 _, blocks, texts ++ [text],
        hattempts.asksAgain hp hattempt hleft text⟩
  | @settles deeds offers cycle a watchers rest revision attempt due result cache next stored hub h hp
      hrest hobtains ih =>
      cases hc
      obtain ⟨hpos, blocks, texts, hattempts⟩ := ih rfl
      have hattempt := hpos ⟨_, _, _, rfl⟩
      exact ⟨by simp, _, [], hattempts.settle hp hub hattempt hobtains⟩

theorem Going.pending_ne_nil {limit : Nat} {ls : List HubListener} {deeds : List Deed}
    {stage : Stage} (h : Going limit ls deeds stage) {cycle : HubCycle}
    (hc : stage.cycle? = some cycle) : cycle.pending ≠ [] := by
  induction h generalizing cycle with
  | begins hp =>
      cases hc
      exact hp
  | asks h hp ih =>
      cases hc
      exact ih rfl
  | asksAgain h hp hresult ih =>
      cases hc
      exact ih rfl
  | settles h hp hrest hobtains ih =>
      cases hc
      simpa [Cycle.settle, hp] using hrest

-- What is settled and what is still to be read make up all that is watched.
theorem Accounts.settled_pending {ls : List HubListener} {deeds : List Deed} {cycle : HubCycle}
    (h : Accounts ls deeds cycle) : settledIn deeds ++ cycle.pending.map Prod.fst = watched ls := by
  rw [h.tracks.addresses_eq, addresses_eq_watched]

theorem Going.underway {limit : Nat} (hlimit : 1 ≤ limit) {ls : List HubListener}
    {deeds : List Deed} {stage : Stage} (h : Going limit ls deeds stage) :
    ∃ blocks a texts, Underway limit ls deeds blocks a texts := by
  cases hc : stage.cycle? with
  | none => exact absurd hc h.cycle?_ne_none
  | some cycle =>
      obtain ⟨-, blocks, texts, hattempts⟩ := h.attempts hlimit hc
      have hwatched := (h.accounts hc).settled_pending
      cases hp : cycle.pending with
      | nil => exact absurd hp (h.pending_ne_nil hc)
      | cons entry rest =>
          have hhears := hattempts.hears entry.1 entry.2 rest hp
          have hasks := hattempts.asks entry.1 entry.2 rest hp
          have hcount := hattempts.count
          have hbound := hattempts.bound
          rw [hhears] at hasks
          refine ⟨blocks, entry.1, texts, ?_, hhears, ?_, ⟨by omega, hattempts.size⟩,
            hattempts.settled⟩
          · by_cases hattempt : stage.attempt = 0
            · rw [if_pos hattempt, List.append_nil] at hasks
              exact .inl ⟨hasks, List.eq_nil_of_length_eq_zero (by omega)⟩
            · rw [if_neg hattempt] at hasks
              exact .inr hasks
          · rw [hattempts.addresses, ← hwatched, hp, List.map_cons]
            exact ⟨rest.map Prod.fst, by simp⟩

section

variable {limit : Nat} {ls : List HubListener} {deeds : List Deed} {blocks : List Block}
  (hhears : hearsIn deeds = blocks.flatMap (·.reads))
  (hasks : asksIn deeds = (hearsIn deeds).map Prod.fst) (hsize : ∀ b ∈ blocks, b.size ≤ limit)
include hhears hasks hsize

omit hsize in
theorem asks_eq_flatMap :
    asksIn deeds = blocks.flatMap fun b => .replicate b.size b.address := by
  rw [hasks, hhears, List.map_flatMap]
  simp only [Block.fst_reads]

theorem blockwise_ok (values : AddressMap CachedValue)
    (haddresses : blocks.map (·.address) = watched ls) (hsettled : ∀ b ∈ blocks, b.settles = true) :
    Blockwise limit { listeners := ls, deeds, result := .ok values } blocks where
  asks := asks_eq_flatMap hhears hasks
  hears := hhears
  addresses := haddresses ▸ List.prefix_refl _
  size := fun b hb => ⟨Nat.le_add_left 1 _, hsize b hb⟩
  answer := fun b hb => .inl (hsettled b hb)
  goesOn := fun _ _ _ _ => haddresses
  stops := by
    intro before b after heq hfails
    have hb : b ∈ blocks := by simp [heq]
    rw [Block.fails_eq_false_of_settles (hsettled b hb)] at hfails
    cases hfails
  covers := ⟨fun _ => ⟨haddresses, hsettled⟩, fun _ => ⟨values, rfl⟩⟩

-- The refresh fails at the address of the last block.
theorem blockwise_failed {before : List Block} {last : Block} {e : FetchError}
    (hblocks : blocks = before ++ [last]) (haddresses : blocks.map (·.address) <+: watched ls)
    (hsettled : ∀ b ∈ before, b.settles = true) (hanswer : last.answer = .error e)
    (hfails : last.fails limit = true) :
    Blockwise limit
      { listeners := ls, deeds, result := .error (.refreshFailed last.address e) } blocks where
  asks := asks_eq_flatMap hhears hasks
  hears := hhears
  addresses := haddresses
  size := fun b hb => ⟨Nat.le_add_left 1 _, hsize b hb⟩
  answer := by
    intro b hb
    rw [hblocks] at hb
    rcases List.mem_append.mp hb with hb | hb
    · exact .inl (hsettled b hb)
    · rw [List.mem_singleton.mp hb]
      exact .inr hfails
  goesOn := by
    intro first b heq hsettles
    rw [hblocks] at heq
    obtain ⟨-, hlast⟩ := List.append_inj' heq rfl
    cases hlast
    rw [Block.fails_eq_false_of_settles hsettles] at hfails
    cases hfails
  stops := by
    intro first b after heq hb
    rw [hblocks] at heq
    rcases split_append heq with ⟨rest, hbefore, -⟩ | ⟨rest, -, hlast⟩
    · have hmem : b ∈ before := by simp [hbefore]
      rw [Block.fails_eq_false_of_settles (hsettled b hmem)] at hb
      cases hb
    · cases rest with
      | nil =>
          cases hlast
          exact ⟨rfl, e, hanswer, rfl⟩
      | cons _ rest =>
          injection hlast with _ hlast
          simp at hlast
  covers := by
    refine ⟨nofun, ?_⟩
    rintro ⟨-, hall⟩
    have hlast := hall last (by simp [hblocks])
    rw [Block.fails_eq_false_of_settles hlast] at hfails
    cases hfails

end

theorem Course.blockwise {limit : Nat} (hlimit : 1 ≤ limit) {ls : List HubListener}
    {deeds : List Deed} {result : RefreshResult} (h : Course limit ls deeds result)
    (hresult : result ≠ .error .cancelled) :
    ∃ blocks, Blockwise limit { listeners := ls, deeds, result } blocks := by
  cases h with
  | beginsNothing hp =>
      have hwatched := (Accounts.plan ls).settled_pending
      rw [hp] at hwatched
      exact ⟨[], blockwise_ok rfl rfl (by simp) .empty hwatched (by simp)⟩
  | @settlesLast deeds offers cycle a watchers revision attempt due result cache next stored hub h hp
      hobtains =>
      obtain ⟨hpos, blocks, texts, hattempts⟩ := h.attempts hlimit rfl
      have hattempt : 1 ≤ attempt := hpos ⟨_, _, _, rfl⟩
      obtain ⟨hhears, hasks⟩ := hattempts.close_reads hp hattempt result
        (.hears a result :: offers ++ [.settles a, .calls hub (cycle.settle stored).2])
        (by cases hobtains <;> rfl) (by cases hobtains <;> rfl)
      have hsettle := hattempts.settle hp hub hattempt hobtains
      have hwatched := ((h.accounts rfl).settle hp hobtains hub).settled_pending
      have hlast : (cycle.settle stored).1.pending = [] := by simp [Cycle.settle, hp]
      rw [hlast, List.map_nil, List.append_nil, ← hsettle.addresses] at hwatched
      exact ⟨_, blockwise_ok hhears hasks hsettle.size _ hwatched hsettle.settled⟩
  | withdraws h => exact absurd rfl hresult
  | givesUp h => exact absurd rfl hresult
  | @fails deeds cycle a watchers rest revision attempt due e hub h hp hreason hfound =>
      obtain ⟨hpos, blocks, texts, hattempts⟩ := h.attempts hlimit rfl
      have hattempt : 1 ≤ attempt := hpos ⟨_, _, _, rfl⟩
      have hcount : texts.length = attempt - 1 := hattempts.count
      have hbound : attempt ≤ limit := hattempts.bound
      obtain ⟨reason, hreason⟩ := hreason
      have hfails := fails_of_conclude? a texts hbound (by omega) hfound hreason
      obtain ⟨hhears, hasks⟩ := hattempts.close_reads hp hattempt (.error e)
        [.hears a (.error e), .abandons, .calls hub cycle.waiting] rfl rfl
      have haddresses : (blocks ++ [Block.mk a texts (.error e)]).map (·.address) <+: watched ls := by
        rw [← (h.accounts rfl).settled_pending, hp, List.map_append, hattempts.addresses]
        exact ⟨rest.map Prod.fst, by simp⟩
      exact ⟨_, blockwise_failed hhears hasks (hattempts.close_size hattempt (.error e)) rfl
        haddresses hattempts.settled rfl hfails⟩

namespace System

variable {s s' : System} {id : TaskId}

theorem made_outcomes (d : Diary) (deeds : List Deed) :
    ∀ r ∈ (d.write deeds).made, r ∈ d.made ∨ .returns r.result ∈ deeds := by
  induction deeds generalizing d with
  | nil => exact fun r hr => .inl hr
  | cons deed rest ih =>
      intro r hr
      rcases ih (d.next deed) r hr with hr | hr
      · unfold Diary.next at hr
        split at hr
        case h_2 result listeners deeds hcurrent =>
          rcases List.mem_append.mp hr with hr | hr
          · exact .inl hr
          · rw [List.mem_singleton.mp hr]
            exact .inr List.mem_cons_self
        all_goals exact .inl hr
      · exact .inr (List.mem_cons_of_mem deed hr)

theorem mem_log {deed : Deed} (h : deed ∈ s.deeds id) : deed ∈ s.log := by
  unfold deeds at h
  obtain ⟨entry, hentry, hdeed⟩ := List.mem_filterMap.mp (List.mem_reverse.mp h)
  split at hdeed
  · injection hdeed with hdeed
    subst hdeed
    exact List.mem_reverse.mpr (List.mem_map_of_mem hentry)
  · cases hdeed

-- No refresh ends as a cancelled one before everything has been cancelled.
def Honest (s : System) : Prop :=
  .returns (.error .cancelled) ∈ s.log → s.hub.cancelled = true

theorem Honest.turned (hs : s.Honest) {next : Stage} {cycleLock transport : Lock} {cache : Cache}
    {success : Bool} {deeds : List Deed}
    (h : Turned id s next cycleLock transport cache success deeds s')
    (hdeeds : .returns (.error .cancelled) ∈ deeds → s.hub.cancelled = true) : s'.Honest := by
  intro hmem
  rw [h.log_eq] at hmem
  rcases List.mem_append.mp hmem with hold | hnew
  · exact h.cancelled (hs hold)
  · exact h.cancelled (hdeeds hnew)

theorem Honest.turn (hs : s.Honest) (ht : Turn id s s') : s'.Honest := by
  cases ht with
  | stays heq _ => exact heq ▸ hs
  | queues hjob hr hst hfrom h => exact hs.turned h (by simp)
  | queuesWrite hjob hst hc h => exact hs.turned h (by simp)
  | declinesWrite hjob hst hc h => exact hs.turned h (by simp)
  | rests hjob hw hst hfrom h => exact hs.turned h (by simp)
  | ends hjob hother hst hfrom h => exact hs.turned h (by simp)
  | declines hjob hst hl hc h => exact hs.turned h fun _ => hc
  | beginsNothing hjob hst hl hc hp h => exact hs.turned h (by simp)
  | begins hst hl hc hp h => exact hs.turned h (by simp)
  | asks hst hp hl hc h => exact hs.turned h (by simp)
  | withdraws hjob hst hp hl hc hhub h => exact hs.turned h fun _ => hc
  | asksAgain hst hp hc hresult h => exact hs.turned h (by simp)
  | settles hst hp hrest hc hobtains hhub h =>
      exact hs.turned h (by cases hobtains <;> simp)
  | settlesLast hjob hst hp hc hobtains hhub h =>
      exact hs.turned h (by cases hobtains <;> simp)
  | givesUp hjob hst hp hc hhub h => exact hs.turned h fun _ => hc
  | @fails job cycle a watchers rest revision attempt due e hub last hjob hst hp hc hresult hfound
      hhub hlast h =>
      refine hs.turned h ?_
      rcases toldAfter_calls job (.error (.refreshFailed a e)) last with htold | ⟨told, ls, htold⟩
      · simp [htold]
      · simp [htold]
  | sends hst hl h => exact hs.turned h (by simp)
  | refused hst h => exact hs.turned h (by simp)
  | @acknowledged a value ack revision hadData cache offers stored hub hst hobtains hhub h =>
      exact hs.turned h (by cases hobtains <;> cases hadData <;> simp)

theorem Reachable.honest (h : s.Reachable) : s.Honest := by
  obtain ⟨settings, model, gateway, moves, rfl⟩ := h
  apply play_induction
  · intro s m hs
    rcases move_cases s m with ⟨id, -, ht⟩ | ⟨-, ha⟩
    · exact hs.turn ht
    · intro hmem
      rw [log_of_journal_eq ha.journal] at hmem
      exact ha.cancelled (hs hmem)
  · exact nofun

-- In every run, whatever the source answers, a refresh reads the addresses that its listeners watch
-- one after another. It goes on with the next address after a value and after a missing coil, and
-- ends with the error of the last attempt otherwise, unless everything is cancelled. As long as it
-- is under way there is an address to be read, and an attempt at it is still allowed. Each attempt that
-- the deeds tell of has gone to the device once, and the device has given the answer.
theorem reads_of_refresh (hs : s.Reachable) (id : TaskId) :
    (∀ r ∈ refreshes (s.deeds id),
      (r.result = .error .cancelled ∧ s.hub.cancelled = true) ∨
        ∃ blocks, Blockwise (Retry.limit s.hub.settings.readRetries) r blocks) ∧
    (∀ ls deeds, (s.diary id).current = some (ls, deeds) →
      ∃ blocks a texts,
        Underway (Retry.limit s.hub.settings.readRetries) ls deeds blocks a texts) ∧
    s.CarriedOut id := by
  have hdiligent := hs.documented.diligent id
  have hlimit : 1 ≤ Retry.limit s.hub.settings.readRetries := Nat.le_max_left 1 _
  refine ⟨?_, ?_, s.carriedOut id⟩
  · intro r hr
    by_cases hresult : r.result = .error .cancelled
    · rcases made_outcomes {} (s.deeds id) r hr with hnone | hmem
      · cases hnone
      · rw [hresult] at hmem
        exact .inl ⟨hresult, hs.honest (mem_log hmem)⟩
    · exact .inr ((hdiligent.made r hr).2.blockwise hlimit hresult)
  · intro ls deeds hcurrent
    have habreast := hdiligent.abreast
    unfold Abreast at habreast
    rw [hcurrent] at habreast
    exact habreast.2.underway hlimit

-- The first address is read at the second attempt, the second one is missing, and the third one
-- fails as often as is allowed.
def faltering : System :=
  (fresh { readRetries := 2 } .f1255
    { source := .pump
        { model := .f1255
          coils := .insert 1 ({ address := 1, name := "", title := "" }, .integer 7) .empty
          readFaults := .insert 1 [.transient "a"]
            (.insert 3 [.transient "b", .transient "c"] .empty) } }).play
    ([.act (.listen "first" [1, 2] []), .act (.listen "second" [3, 2] []), .spawn .refresh] ++
      .replicate 10 (.step 0))

theorem reads_of_refresh_faltering :
    (∃ r ∈ refreshes (faltering.deeds 0), asksIn r.deeds = [1, 1, 2, 3, 3] ∧
      r.result = .error (.refreshFailed 3 (.transient "c")) ∧ ∃ blocks, Blockwise 2 r blocks) ∧
    faltering.CarriedOut 0 ∧
    faltering.hub.history =
      [.read 3, .read 3, .called (.named "first") [some (.integer 7), none], .read 2, .read 1,
        .read 1] := by
  have hne : refreshes (faltering.deeds 0) ≠ [] := List.ne_nil_of_length_pos (by decide)
  have hresult : ((refreshes (faltering.deeds 0)).head hne).result =
      .error (.refreshFailed 3 (.transient "c")) := rfl
  obtain ⟨hmade, -, hdone⟩ := reads_of_refresh ⟨_, _, _, _, rfl⟩ 0
  refine ⟨⟨_, List.head_mem hne, rfl, hresult, ?_⟩, hdone, rfl⟩
  rcases hmade _ (List.head_mem hne) with ⟨hcancelled, -⟩ | hblocks
  · rw [hresult] at hcancelled
    cases hcancelled
  · exact hblocks

end System

end CoilHub
