import CoilHub.Proofs.Entities.Availability
import CoilHub.Proofs.Interleaving.Steady

namespace CoilHub

theorem Cache.get?_of_isEmpty {c : Cache} (h : c.isEmpty = true) (a : Address) :
    c.get? a = none := by
  have hnil : c.entries.entries = [] := List.isEmpty_iff.mp h
  simp [Cache.get?, AddressMap.get?, hnil]

-- A listener that takes over a value does just that.
theorem Hub.call_display (hub : Hub) {l : HubListener} {index : Nat} {a : Address}
    (h : l.reaction.effect = .display index a) :
    hub.call l = (hub.emit (.called l.handle
      (l.reaction.looksAt.map hub.cache.get?))).refreshDisplay index a := by
  unfold Hub.call
  rw [Hub.callWithin, h]
  rfl

namespace Entity

-- Nobody else writes to the display of an entity.
def Tuned (e : Entity) : Effect → Prop
  | .display index a => index = e.index → a = e.coil.address
  | .script _ _ => True

-- The entity is among these listeners.
def Cast (e : Entity) (ls : List HubListener) : Prop :=
  e.listener ∈ ls ∧ ∀ l ∈ ls, e.Tuned l.reaction.effect

theorem mem_watching (e : Entity) {hub : Hub} (h : e.Attached hub) :
    e.listener ∈ hub.registry.watching e.coil.address := by
  refine List.mem_filter.mpr ⟨h, ?_⟩
  rw [AddressSet.contains_iff]
  exact AddressSet.mem_ofList.mpr List.mem_cons_self

-- How what an entity shows is related to what is cached for its coil.
structure Shows (e : Entity) (Q : Option CoilValue → Option CoilValue → Prop) (hub : Hub) : Prop where
  seated : e.index < hub.displays.length
  cast : e.Cast hub.registry.listeners
  shown : Q (e.display hub).value (hub.cache.get? e.coil.address)

-- Relations that hold when an entity takes over a cached value, and that go on to hold when a first
-- value is cached of which the entity does not hear.
structure Sound (Q : Option CoilValue → Option CoilValue → Prop) : Prop where
  told : ∀ value, Q (some value) (some value)
  untold : ∀ shown value, Q shown none → Q shown (some value)

-- An entity shows the cached value, or nothing yet.
def Faithful (shown cached : Option CoilValue) : Prop := shown = none ∨ shown = cached

-- It shows the cached value.
def Current (shown cached : Option CoilValue) : Prop := shown ≠ none ∧ shown = cached

theorem sound_faithful : Sound Faithful where
  told := fun _ => .inr rfl
  untold := fun _ _ h => .inl (h.elim id id)

theorem sound_current : Sound Current where
  told := fun _ => ⟨nofun, rfl⟩
  untold := fun _ _ h => absurd h.2 h.1

namespace Shows

variable {e : Entity} {hub : Hub} {Q R : Option CoilValue → Option CoilValue → Prop}

theorem mono (h : e.Shows Q hub) (hQ : ∀ shown cached, Q shown cached → R shown cached) :
    e.Shows R hub :=
  ⟨h.seated, h.cast, hQ _ _ h.shown⟩

theorem of_current (h : e.Shows Current hub) (hQ : ∀ value, Q (some value) (some value)) :
    e.Shows Q hub := by
  apply h.mono
  rintro shown _ ⟨hshown, rfl⟩
  obtain ⟨value, rfl⟩ := Option.ne_none_iff_exists'.mp hshown
  exact hQ value

-- Whatever an entity showed before, it shows the cached value when it has taken it over.
theorem refreshed (h : e.Shows Q hub) {value : CoilValue}
    (hvalue : hub.cache.get? e.coil.address = some value) :
    e.Shows Current (hub.refreshDisplay e.index e.coil.address) := by
  unfold Hub.refreshDisplay
  rw [hvalue]
  refine ⟨by simpa using h.seated, h.cast, ?_⟩
  have hshown : (e.display { hub with displays := hub.displays.modify e.index fun d =>
      { value := some value, version := d.version + 1 } }).value = some value := by
    simp [Entity.display, List.getElem?_eq_getElem h.seated]
  rw [hshown]
  exact ⟨nofun, hvalue.symm⟩

theorem lasting (hQ : ∀ value, Q (some value) (some value)) :
    Hub.Lasting (e.Shows Q) e.Cast e.Tuned fun _ => True where
  quiet := by
    intro hub after h hquiet
    refine ⟨?_, ?_, ?_⟩
    · rw [hquiet.displays]
      exact h.seated
    · rw [hquiet.registry]
      exact h.cast
    · have hshown := h.shown
      unfold display Cache.get? at hshown ⊢
      rw [hquiet.displays, hquiet.entries]
      exact hshown
  registry := cast
  safe := fun h => h.2
  mild := fun _ _ _ => trivial
  display := by
    intro hub index a h htuned
    cases hvalue : hub.cache.get? a with
    | none =>
        unfold Hub.refreshDisplay
        rw [hvalue]
        exact h
    | some value =>
        by_cases hindex : index = e.index
        · obtain rfl : a = e.coil.address := htuned hindex
          rw [hindex]
          exact (h.refreshed hvalue).of_current hQ
        · unfold Hub.refreshDisplay
          rw [hvalue]
          refine ⟨by simpa using h.seated, h.cast, ?_⟩
          simpa [Entity.display, List.getElem?_modify, hindex] using h.shown
  listen := by
    intro hub name interest actions h _
    refine ⟨h.seated, ⟨Registry.mem_place_of_ne h.cast.1 nofun, ?_⟩, h.shown⟩
    intro l hmem
    rcases Registry.mem_place hmem with rfl | hmem
    · trivial
    · exact h.cast.2 l hmem
  unlisten := by
    intro hub name h
    refine ⟨h.seated, ⟨List.mem_filter.mpr ⟨h.cast.1, decide_eq_true nofun⟩, ?_⟩, h.shown⟩
    exact fun l hmem => h.cast.2 l (List.mem_filter.mp hmem).1
  setValue := fun h _ => ⟨h.seated, h.cast, h.shown⟩

-- So it does once it has been called, whoever else is called.
theorem told (h : e.Shows Q hub) {ls : List HubListener} (hls : e.Cast ls) {value : CoilValue}
    (hvalue : hub.cache.get? e.coil.address = some value) : e.Shows Current (hub.callEach ls) := by
  obtain ⟨hl, htuned⟩ := hls
  obtain ⟨before, after, rfl⟩ := List.append_of_mem hl
  have hsplit : hub.callEach (before ++ e.listener :: after) =
      ((hub.callEach before).call e.listener).callEach after := by
    simp [Hub.callEach]
  have hany : e.Shows (fun _ _ => True) hub := h.mono fun _ _ _ => trivial
  have hbefore : e.Shows (fun _ _ => True) (hub.callEach before) := by
    apply (lasting fun _ => trivial).callEach hany
    exact fun l hmem => htuned l (List.mem_append_left _ hmem)
  have hcached : (hub.callEach before).cache.get? e.coil.address = some value := by
    rw [(hub.kept_callEach before).cache]
    exact hvalue
  rw [hsplit]
  have hemitted : e.Shows (fun _ _ => True) ((hub.callEach before).emit (.called e.listener.handle
      (e.listener.reaction.looksAt.map (hub.callEach before).cache.get?))) :=
    (lasting fun _ => trivial).quiet hbefore (.of_eq rfl rfl rfl rfl)
  have hcalled : e.Shows Current ((hub.callEach before).call e.listener) := by
    rw [Hub.call_display (hub.callEach before) (l := e.listener) rfl]
    exact hemitted.refreshed hcached
  apply (lasting sound_current.told).callEach hcalled
  exact fun l hmem => htuned l (List.mem_append_right _ (List.mem_cons_of_mem _ hmem))

-- A call of the pump has been answered with a value, and those who are to hear of it have been
-- called.
theorem answered (hQ : Sound Q) (h : e.Shows Q hub) {gateway : Gateway} {next : Cache}
    {revision : UInt64} {a : Address} {value : CoilValue} {offers : List Deed}
    {stored : Option CachedValue} {ls : List HubListener}
    (hobtains : System.Obtains hub.cache revision a (.ok value) next offers stored)
    (htuned : ∀ l ∈ ls, e.Tuned l.reaction.effect)
    (hcalled : ∀ cached, stored = some cached → a = e.coil.address → e.listener ∈ ls) :
    e.Shows Q ({ hub with gateway, cache := next }.callEach ls) := by
  have hsame : next.get? e.coil.address = hub.cache.get? e.coil.address →
      e.Shows Q ({ hub with gateway, cache := next }.callEach ls) := by
    intro hcache
    have hbefore : e.Shows Q { hub with gateway, cache := next } := by
      refine ⟨h.seated, h.cast, ?_⟩
      show Q (e.display hub).value (next.get? e.coil.address)
      rw [hcache]
      exact h.shown
    exact (lasting hQ.told).callEach hbefore htuned
  cases hobtains with
  | refused hstore => exact hsame rfl
  | stored hstore =>
      have hnext := Cache.get?_of_store? hstore e.coil.address
      by_cases ha : e.coil.address = a
      · rw [if_pos ha] at hnext
        have hbefore : e.Shows (fun _ _ => True) { hub with gateway, cache := next } :=
          ⟨h.seated, h.cast, trivial⟩
        exact (hbefore.told ⟨hcalled _ rfl ha.symm, htuned⟩ hnext).of_current hQ.told
      · rw [if_neg ha] at hnext
        exact hsame hnext

-- The same if nobody is called, because nothing had been cached before.
theorem unheard (hQ : Sound Q) (h : e.Shows Q hub) {gateway : Gateway} {next : Cache}
    {revision : UInt64} {a : Address} {value : CoilValue} {offers : List Deed}
    {stored : Option CachedValue} (hempty : hub.cache.isEmpty = true)
    (hobtains : System.Obtains hub.cache revision a (.ok value) next offers stored) :
    e.Shows Q { hub with gateway, cache := next } := by
  have hshown := h.shown
  rw [Cache.get?_of_isEmpty hempty] at hshown
  refine ⟨h.seated, h.cast, ?_⟩
  show Q (e.display hub).value (next.get? e.coil.address)
  cases hobtains with
  | refused hstore =>
      rw [Cache.get?_of_isEmpty hempty]
      exact hshown
  | stored hstore =>
      rw [Cache.get?_of_store? hstore, Cache.get?_of_isEmpty hempty]
      split
      · exact hQ.untold _ _ hshown
      · exact hshown

-- Other entities have displays of their own.
theorem attach (h : e.Shows Q hub) (coil : Coil) : e.Shows Q (Entity.attach hub coil).2 := by
  have hne : hub.displays.length ≠ e.index := Nat.ne_of_gt h.seated
  refine ⟨?_, ⟨?_, ?_⟩, ?_⟩
  · have hlt := h.seated
    simp only [Entity.attach, Hub.register, List.length_append, List.length_singleton]
    omega
  · apply Registry.mem_place_of_ne h.cast.1
    intro heq
    injection heq with heq
    exact hne heq.symm
  · intro l hmem
    rcases Registry.mem_place hmem with rfl | hmem
    · exact fun heq => absurd heq hne
    · exact h.cast.2 l hmem
  · have hshown := h.shown
    unfold display at hshown ⊢
    simpa [Entity.attach, Hub.register, List.getElem?_append_left h.seated] using hshown

theorem detach (h : e.Shows Q hub) {other : Entity} (hne : other.index ≠ e.index) :
    e.Shows Q (Entity.detach hub other) := by
  refine ⟨h.seated, ⟨List.mem_filter.mpr ⟨h.cast.1, decide_eq_true ?_⟩, ?_⟩, h.shown⟩
  · intro heq
    injection heq with heq
    exact hne heq.symm
  · exact fun l hmem => h.cast.2 l (List.mem_filter.mp hmem).1

end Shows

-- An entity is called at once, and sees this value.
def Learns (e : Entity) (value : CoilValue) (deeds : List Deed) : Prop :=
  ∃ settled hub ls rest, deeds = settled ++ .calls hub ls :: rest ∧
    (∀ deed ∈ settled, deed = .settles e.coil.address) ∧ e.listener ∈ ls ∧
    hub.cache.get? e.coil.address = some value

-- No value that is stored for its coil escapes an entity.
def LearnsAll (e : Entity) (deeds : List Deed) : Prop :=
  ∀ before revision value after,
    deeds = before ++ .offers revision e.coil.address value true :: after → e.Learns value after

section

variable {e : Entity} {deeds more : List Deed}

theorem learnsAll_of_none (h : ∀ revision value, .offers revision e.coil.address value true ∉ deeds) :
    e.LearnsAll deeds := by
  rintro before revision value after rfl
  exact absurd (List.mem_append_right _ List.mem_cons_self) (h revision value)

theorem LearnsAll.append (h : e.LearnsAll deeds) (hmore : e.LearnsAll more) :
    e.LearnsAll (deeds ++ more) := by
  intro before revision value after heq
  rcases split_append heq with ⟨rest, hdeeds, rfl⟩ | ⟨first, -, hmore'⟩
  · obtain ⟨settled, hub, ls, last, rfl, hlearns⟩ := h before revision value rest hdeeds
    exact ⟨settled, hub, ls, last ++ more, by simp, hlearns⟩
  · exact hmore first revision value after hmore'

theorem LearnsAll.cons (hmore : e.LearnsAll more) {deed : Deed}
    (h : ∀ revision value, deed = .offers revision e.coil.address value true → e.Learns value more) :
    e.LearnsAll (deed :: more) := by
  intro before revision value after heq
  cases before with
  | nil =>
      injection heq with hdeed hrest
      exact hrest ▸ h revision value hdeed
  | cons first rest =>
      injection heq with hdeed hrest
      exact hmore rest revision value after hrest

end

end Entity

-- Whoever writes to a display writes to one that is there.
def Hub.Furnished (hub : Hub) : Prop :=
  ∀ l ∈ hub.registry.listeners, ∀ index a, l.reaction.effect = .display index a →
    index < hub.displays.length

theorem Hub.furnished_lasting :
    Hub.Lasting Hub.Furnished (fun _ => True) (fun _ => True) fun _ => True where
  quiet := by
    intro hub after h hquiet
    unfold Furnished
    rw [hquiet.registry, hquiet.displays]
    exact h
  registry := fun _ => trivial
  safe := fun _ _ _ => trivial
  mild := fun _ _ _ => trivial
  display := by
    intro hub index a h _
    unfold refreshDisplay
    split
    · exact h
    · unfold Furnished
      rw [List.length_modify]
      exact h
  listen := by
    intro hub name interest actions h _ l hmem
    rcases Registry.mem_place hmem with rfl | hmem
    · exact nofun
    · exact h l hmem
  unlisten := fun h l hmem => h l (List.mem_filter.mp hmem).1
  setValue := fun h _ => h

theorem Hub.Furnished.attach {hub : Hub} (h : hub.Furnished) (coil : Coil) :
    (Entity.attach hub coil).2.Furnished := by
  intro l hmem index a heffect
  have hlength : (Entity.attach hub coil).2.displays.length = hub.displays.length + 1 := by
    simp [Entity.attach, register]
  rw [hlength]
  rcases Registry.mem_place hmem with rfl | hmem
  · cases heffect
    exact Nat.lt_succ_self _
  · exact Nat.lt_succ_of_lt (h l hmem index a heffect)

-- An entity that has just been attached shows nothing.
theorem Entity.shows_attach {hub : Hub} (h : hub.Furnished) (coil : Coil) :
    (attach hub coil).1.Shows Faithful (attach hub coil).2 := by
  refine ⟨by simp [attach, Hub.register], ⟨attached_attach hub coil, ?_⟩, .inl ?_⟩
  · intro l hmem
    rcases Registry.mem_place hmem with rfl | hmem
    · exact fun _ => rfl
    · cases heffect : l.reaction.effect with
      | script counter actions => trivial
      | display index a =>
          have hlt := h l hmem index a heffect
          exact fun heq => absurd heq (Nat.ne_of_lt hlt)
  · simp [attach, display, Hub.register]

namespace System

variable {s s' : System} {id : TaskId} {e : Entity}

theorem Reachable.furnished (hs : s.Reachable) : s.hub.Furnished := by
  have hlasting := Hub.furnished_lasting
  have hanyone : ∀ (s : System), s.hub.Furnished → s.Steady Hub.Furnished fun _ => True :=
    fun s h => ⟨h, fun _ _ _ _ _ => trivial⟩
  apply hs.induction (P := fun s => s.hub.Furnished)
  · exact fun _ _ _ => nofun
  · intro s m hs h
    have hsteady := hanyone s h
    have hmoved : (s.move m).Steady Hub.Furnished fun _ => True := by
      apply hsteady.move hlasting m
      · rintro id rfl
        apply hsteady.step hlasting
        · intro cycle revision attempt due a watchers rest value next offers stored hst hp hresult
            hobtains
          have hanswered : ({ (s.hub.finishRead a).2 with cache := next } : Hub).Furnished := h
          exact hlasting.callEach hanswered fun _ _ => trivial
        · intro a value revision hadData ack next offers stored hst hresult hobtains
          have hanswered : ({ (s.hub.finishWrite a value).2 with cache := next } : Hub).Furnished := h
          cases hadData with
          | false => exact hanswered
          | true => exact hlasting.callEach hanswered fun _ _ => trivial
        · exact fun _ _ _ => h
      · exact fun _ _ => trivial
      · rintro coil rfl
        exact h.attach coil
      · rintro e rfl
        exact fun l hmem => h l (List.mem_filter.mp hmem).1
      · rintro g rfl
        exact h
    exact hmoved.hub

-- A write that is under way knows whether anything is cached.
def Informed (s : System) : Prop :=
  ∀ id a value revision hadData, s.stage? id = some (.writing a value revision hadData) →
    hadData = !s.hub.cache.isEmpty

section

variable (hi : s.Informed) {next : Stage} {cycleLock transport : Lock} {cache : Cache}
  {success : Bool} {deeds : List Deed} (h : Turned id s next cycleLock transport cache success deeds s')
include hi h

theorem Informed.turned (hcache : cache.isEmpty = s.hub.cache.isEmpty)
    (hnext : ∀ a value revision hadData, next = .writing a value revision hadData →
      hadData = !s.hub.cache.isEmpty) : s'.Informed := by
  intro j a value revision hadData hst
  rw [h.cache_eq, hcache]
  by_cases heq : j = id
  · subst heq
    rw [h.stage] at hst
    exact hnext a value revision hadData (Option.some.inj hst)
  · rw [h.others j heq] at hst
    exact hi j a value revision hadData hst

omit hi in
-- Whoever stores a value holds the transport, so no write is under way.
theorem Orderly.informed (ho : s.Orderly) (hl : s.transport.holder = some id)
    (hnext : ∀ a value revision hadData, next ≠ .writing a value revision hadData) :
    s'.Informed := by
  intro j a value revision hadData hst
  by_cases heq : j = id
  · subst heq
    rw [h.stage] at hst
    exact absurd (Option.some.inj hst) (hnext a value revision hadData)
  · rw [h.others j heq] at hst
    have hholder := ho.holder_of_writing hst
    rw [hl] at hholder
    exact absurd (Option.some.inj hholder).symm heq

end

theorem stageAfter_ne_writing (job : Job) (result : RefreshResult) (a : Address) (value : CoilValue)
    (revision : UInt64) (hadData : Bool) :
    stageAfter job result ≠ .writing a value revision hadData := by
  rcases stageAfter_cases job result with ⟨outcome, h⟩ | ⟨-, h⟩ <;> rw [h] <;> nofun

theorem Informed.turn (hi : s.Informed) (ho : s.Orderly) (ht : Turn id s s') : s'.Informed := by
  have hafter : ∀ {job result cycleLock transport cache success deeds},
      Turned id s (stageAfter job result) cycleLock transport cache success deeds s' →
      cache.isEmpty = s.hub.cache.isEmpty → s'.Informed := by
    intro job result cycleLock transport cache success deeds h hcache
    refine hi.turned h hcache fun a value revision hadData heq => ?_
    exact absurd heq (stageAfter_ne_writing job result a value revision hadData)
  cases ht with
  | stays hs _ => exact hs ▸ hi
  | queues hjob hr hst hfrom h => exact hi.turned h rfl nofun
  | queuesWrite hjob hst hc h => exact hi.turned h rfl nofun
  | declinesWrite hjob hst hc h => exact hi.turned h rfl nofun
  | rests hjob hw hst hfrom h => exact hi.turned h rfl nofun
  | ends hjob hother hst hfrom h => exact hi.turned h rfl nofun
  | declines hjob hst hl hc h => exact hafter h rfl
  | beginsNothing hjob hst hl hc hp h => exact hafter h rfl
  | begins hst hl hc hp h => exact hi.turned h rfl nofun
  | asks hst hp hl hc h => exact hi.turned h rfl nofun
  | withdraws hjob hst hp hl hc hhub h => exact hafter h rfl
  | asksAgain hst hp hc hresult h => exact hi.turned h rfl nofun
  | settles hst hp hrest hc hobtains hhub h =>
      exact ho.informed h (ho.holder_of_reading hst).2 nofun
  | settlesLast hjob hst hp hc hobtains hhub h =>
      exact ho.informed h (ho.holder_of_reading hst).2 (stageAfter_ne_writing _ _)
  | givesUp hjob hst hp hc hhub h => exact hafter h rfl
  | fails hjob hst hp hc hresult hfound hhub hlast h => exact hafter h rfl
  | sends hst hl h =>
      refine hi.turned h rfl ?_
      intro a value revision hadData heq
      cases heq
      rfl
  | refused hst h => exact hi.turned h rfl nofun
  | acknowledged hst hobtains hhub h => exact ho.informed h (ho.holder_of_writing hst) nofun

theorem Reachable.informed (hs : s.Reachable) : s.Informed := by
  apply hs.induction
  · exact fun settings model gateway id a value revision hadData hst => by cases hst
  · intro s m hs hi
    rcases move_cases s m with ⟨id, -, ht⟩ | ⟨-, ha⟩
    · exact hi.turn hs.orderly ht
    · intro id a value revision hadData hst
      rw [ha.cache]
      rcases ha.stages id with hsame | ⟨-, hfresh⟩ | ⟨-, hfinished⟩
      · rw [hsame] at hst
        exact hi id a value revision hadData hst
      · rw [hfresh] at hst
        cases hst
      · rw [hfinished] at hst
        cases hst

-- A run in which an entity is followed: what it shows, and that the refreshes under way call it.
structure Follows (Q : Option CoilValue → Option CoilValue → Prop) (e : Entity) (s : System) :
    Prop where
  reachable : s.Reachable
  steady : s.Steady (e.Shows Q) e.Cast

-- Whatever may happen as long as the entity stays attached.
def Move.Keeps (e : Entity) : Move → Prop
  | .detach other => other.index ≠ e.index
  | _ => True

namespace Follows

variable {Q : Option CoilValue → Option CoilValue → Prop} (hQ : Entity.Sound Q) (h : s.Follows Q e)
include hQ h

theorem step (id : TaskId) : (s.step id).Steady (e.Shows Q) e.Cast := by
  have hshows := h.steady.hub
  apply h.steady.step (Entity.Shows.lasting hQ.told)
  · intro cycle revision attempt due a watchers rest value next offers stored hst hp hresult hobtains
    have hcast := h.steady.casts id _ cycle hst rfl
    apply hshows.answered hQ hobtains
    · exact fun l hmem => hcast.2 l (Cycle.mem_of_completed hmem)
    · rintro cached rfl rfl
      exact called_of_stored h.reachable hst hp hcast.1 cached
  · intro a value revision hadData ack next offers stored hst hresult hobtains
    cases hadData with
    | false =>
        have hempty : s.hub.cache.isEmpty = true := by
          simpa using h.reachable.informed id a value revision false hst
        exact hshows.unheard hQ hempty hobtains
    | true =>
        apply hshows.answered hQ hobtains
        · exact fun l hmem => hshows.cast.2 l (List.mem_filter.mp hmem).1
        · rintro - - rfl
          exact e.mem_watching hshows.cast.1
  · exact fun _ _ _ => ⟨hshows.seated, hshows.cast, hshows.shown⟩

theorem move {m : Move} (hm : m.Keeps e) : (s.move m).Follows Q e := by
  have hshows := h.steady.hub
  refine ⟨h.reachable.play [m], ?_⟩
  apply h.steady.move (Entity.Shows.lasting hQ.told) m
  · rintro id rfl
    exact h.step hQ id
  · exact fun _ _ => trivial
  · rintro coil rfl
    exact hshows.attach coil
  · rintro other rfl
    exact hshows.detach hm
  · rintro g rfl
    exact ⟨hshows.seated, hshows.cast, hshows.shown⟩

theorem play {moves : List Move} (hmoves : ∀ m ∈ moves, m.Keeps e) :
    (s.play moves).Follows Q e := by
  induction moves generalizing s with
  | nil => exact h
  | cons m rest ih =>
      have hnext := h.move hQ (hmoves m List.mem_cons_self)
      exact ih hnext fun m hmem => hmoves m (List.mem_cons_of_mem _ hmem)

end Follows

section

variable {cycle : HubCycle} {a : Address} {watchers : List Nat} {rest : List (Address × List Nat)}
  {revision : UInt64} {attempt due : Nat} {result : FetchResult CoilValue} {cache : Cache}
  {offers : List Deed} {stored : Option CachedValue} {hub : Hub}

theorem learnsAll_settle (hs : s.Reachable)
    (hst : s.stage? id = some (.reading cycle revision attempt due))
    (hp : cycle.pending = (a, watchers) :: rest) (hl : e.listener ∈ cycle.listeners)
    (hobtains : Obtains s.hub.cache revision a result cache offers stored)
    (hhub : Hub.Kept { s.hub with cache } hub) {last : List Deed}
    (hlast : ∀ revision value, .offers revision e.coil.address value true ∉ last) :
    e.LearnsAll (.hears a result :: offers ++
      .settles a :: .calls hub (cycle.settle stored).2 :: last) := by
  have hrest : e.LearnsAll (.settles a :: .calls hub (cycle.settle stored).2 :: last) :=
    Entity.learnsAll_of_none (by simpa using hlast)
  cases hobtains with
  | missing b => exact hrest.cons nofun
  | refused hstore => exact (hrest.cons fun _ _ heq => by cases heq).cons nofun
  | stored hstore =>
      refine Entity.LearnsAll.cons (hrest.cons ?_) nofun
      intro revision' value' heq
      cases heq
      refine ⟨[.settles e.coil.address], hub, _, last, rfl, by simp,
        called_of_stored hs hst hp hl _, ?_⟩
      rw [hhub.cache]
      exact (Cache.get?_of_store? hstore _).trans (if_pos rfl)

end

-- Once an entity shows a value, it hears of every other one.
theorem Turn.learnsAll (ht : Turn id s s') (h : s.Follows Entity.Current e) :
    ∃ deeds, s'.log = s.log ++ deeds ∧ e.LearnsAll deeds := by
  have hs := h.reachable
  cases ht with
  | stays hs' _ => exact ⟨[], by simp [hs'], Entity.learnsAll_of_none (by simp)⟩
  | settles hst hp hrest hc hobtains hhub ht =>
      have hcast := h.steady.casts id _ _ hst rfl
      exact ⟨_, ht.log_eq, learnsAll_settle hs hst hp hcast.1 hobtains hhub (by simp)⟩
  | settlesLast hjob hst hp hc hobtains hhub ht =>
      have hcast := h.steady.casts id _ _ hst rfl
      exact ⟨_, ht.log_eq, learnsAll_settle hs hst hp hcast.1 hobtains hhub (by simp)⟩
  | @fails job cycle a watchers rest revision attempt due fault hub last hjob hst hp hc hresult hfound
      hhub hlast ht =>
      refine ⟨_, ht.log_eq, Entity.learnsAll_of_none ?_⟩
      rcases toldAfter_calls job (.error (.refreshFailed a fault)) last with
        htold | ⟨hub', ls, htold⟩ <;>
        simp [htold]
  | @acknowledged a value ack revision hadData cache offers stored hub hst hobtains hhub ht =>
      obtain ⟨hseated, hcast, hshown, hcurrent⟩ := h.steady.hub
      have hfull : s.hub.cache.isEmpty = false := by
        cases hempty : s.hub.cache.isEmpty with
        | false => rfl
        | true => exact absurd (hcurrent.trans (Cache.get?_of_isEmpty hempty _)) hshown
      obtain rfl : hadData = true := by
        rw [hs.informed id a value revision hadData hst, hfull]
        rfl
      have hcalls : e.LearnsAll [.calls hub (hub.registry.watching a)] :=
        Entity.learnsAll_of_none (by simp)
      refine ⟨_, ht.log_eq, ?_⟩
      rw [if_pos rfl]
      cases hobtains with
      | refused hstore => exact (hcalls.cons fun _ _ heq => by cases heq).cons nofun
      | stored hstore =>
          refine Entity.LearnsAll.cons (hcalls.cons ?_) nofun
          intro revision' value' heq
          cases heq
          have hattached : e.listener ∈ hub.registry.listeners :=
            hhub.entities e.listener hcast.1 e.index hseated rfl
          refine ⟨[], hub, hub.registry.watching e.coil.address, [], rfl, by simp,
            e.mem_watching hattached, ?_⟩
          rw [hhub.cache]
          exact (Cache.get?_of_store? hstore _).trans (if_pos rfl)
  -- no value is offered
  | _ => exact ⟨_, Turned.log_eq ‹_›, Entity.learnsAll_of_none (by simp)⟩

theorem Follows.learnsAll (h : s.Follows Entity.Current e) {moves : List Move}
    (hmoves : ∀ m ∈ moves, m.Keeps e) : e.LearnsAll (deedsSince s (s.play moves)) := by
  induction moves generalizing s with
  | nil =>
      have hnone : deedsSince s (s.play []) = [] := deedsSince_of_log_eq (by simp)
      rw [hnone]
      exact Entity.learnsAll_of_none (by simp)
  | cons m rest ih =>
      rw [deedsSince_play_cons]
      have hnext := h.move Entity.sound_current (hmoves m List.mem_cons_self)
      refine .append ?_ (ih hnext fun m hmem => hmoves m (List.mem_cons_of_mem _ hmem))
      rcases move_cases s m with ⟨id, -, ht⟩ | ⟨-, ha⟩
      · obtain ⟨deeds, hlog, hlearns⟩ := ht.learnsAll h
        rw [deedsSince_of_log_eq hlog]
        exact hlearns
      · rw [ha.deedsSince_eq]
        exact Entity.learnsAll_of_none (by simp)

-- An entity that is attached while no refresh is under way, and stays attached, shows the cached
-- value of its coil from the moment at which it shows anything, and hears of every value that is
-- stored from then on.
theorem display_faithful (hs : s.Reachable)
    (hidle : ∀ id stage, s.stage? id = some stage → stage.cycle? = none) {coil : Coil}
    (he : (Entity.attach s.hub coil).1 = e) {moves more : List Move}
    (hmoves : ∀ m ∈ moves ++ more, m.Keeps e)
    (hshown : (e.display ((s.move (.attach coil)).play moves).hub).value ≠ none) :
    (e.display ((s.move (.attach coil)).play (moves ++ more)).hub).value ≠ none ∧
      (e.display ((s.move (.attach coil)).play (moves ++ more)).hub).value =
        ((s.move (.attach coil)).play (moves ++ more)).hub.cache.get? coil.address ∧
      e.LearnsAll (deedsSince ((s.move (.attach coil)).play moves)
        ((s.move (.attach coil)).play (moves ++ more))) := by
  subst he
  have hattached : (s.move (.attach coil)).Follows Entity.Faithful (Entity.attach s.hub coil).1 := by
    refine ⟨hs.play [.attach coil], Entity.shows_attach hs.furnished coil, ?_⟩
    intro id stage cycle hst hcycle
    rw [hidle id stage hst] at hcycle
    cases hcycle
  have hbefore := hattached.play Entity.sound_faithful
    fun m hmem => hmoves m (List.mem_append_left _ hmem)
  have hcurrent : ((s.move (.attach coil)).play moves).Follows Entity.Current
      (Entity.attach s.hub coil).1 := by
    obtain ⟨hreachable, hshows, hcasts⟩ := hbefore
    refine ⟨hreachable, ⟨hshows.seated, hshows.cast, hshown, ?_⟩, hcasts⟩
    exact hshows.shown.resolve_left hshown
  have hmore : ∀ m ∈ more, m.Keeps (Entity.attach s.hub coil).1 :=
    fun m hmem => hmoves m (List.mem_append_right _ hmem)
  have hafter := (hcurrent.play Entity.sound_current hmore).steady.hub.shown
  have hlearns := hcurrent.learnsAll hmore
  rw [← play_append] at hafter hlearns
  exact ⟨hafter.1, hafter.2, hlearns⟩

-- A first cycle, and then a write.
def firstCycle : List Move := .spawn .cycle :: .replicate 4 (.step 0)

def thenWrite : List Move := .spawn (.write 1 (.integer 7)) :: .replicate 3 (.step 1)

theorem display_faithful_written :
    (thermometer.display (((fresh {} .f1155 { source := .echo }).move
      (.attach thermometer.coil)).play firstCycle).hub).value = some (.integer 1) ∧
    (thermometer.display (((fresh {} .f1155 { source := .echo }).move
      (.attach thermometer.coil)).play (firstCycle ++ thenWrite)).hub).value = some (.integer 7) ∧
    (((fresh {} .f1155 { source := .echo }).move
      (.attach thermometer.coil)).play (firstCycle ++ thenWrite)).hub.cache.get? 1 =
        some (.integer 7) ∧
    thermometer.LearnsAll (deedsSince
      (((fresh {} .f1155 { source := .echo }).move (.attach thermometer.coil)).play firstCycle)
      (((fresh {} .f1155 { source := .echo }).move (.attach thermometer.coil)).play
        (firstCycle ++ thenWrite))) := by
  have hmoves : ∀ m ∈ firstCycle ++ thenWrite, m.Keeps thermometer := by
    simp [firstCycle, thenWrite, Move.Keeps]
  have hshown : (thermometer.display (((fresh {} .f1155 { source := .echo }).move
      (.attach thermometer.coil)).play firstCycle).hub).value = some (.integer 1) := by decide
  have hcached : (((fresh {} .f1155 { source := .echo }).move
      (.attach thermometer.coil)).play (firstCycle ++ thenWrite)).hub.cache.get? 1 =
        some (.integer 7) := by decide
  have he : (Entity.attach (fresh {} .f1155 { source := .echo }).hub thermometer.coil).1 =
      thermometer := by decide
  have hreachable : (fresh {} .f1155 { source := .echo }).Reachable := ⟨_, _, _, [], rfl⟩
  obtain ⟨-, hsame, hlearns⟩ := display_faithful hreachable nofun he hmoves
    (by rw [hshown]; exact nofun)
  exact ⟨hshown, hsame.trans hcached, hcached, hlearns⟩

end System

end CoilHub
