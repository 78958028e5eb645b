import CoilHub.Proofs.Entities.Reckoning

namespace CoilHub

namespace System

variable {s : System} {e : Entity}

-- How many writes of an address are acknowledged in a move while anything is cached.
def writesIn (s : System) (a : Address) (m : Move) : Nat :=
  if s.hub.cache.isEmpty then 0 else (deedsSince s (s.move m)).countP (Deed.acknowledges a)

-- How many broadcasts are made in an action of somebody who is no listener.
def Move.broadcasts (hub : Hub) : Move → Nat
  | .act action => hub.broadcastsOfAct action
  | _ => 0

-- How many broadcasts are made in a move while an address is cached: those of listeners, those of others
-- and the one that comes with the fall of the success flag.
def broadcastsIn (s : System) (a : Address) (m : Move) : Nat :=
  ((deedsSince s (s.move m)).map (Deed.broadcasts a)).sum +
    if s.hub.cache.contains a then
      m.broadcasts s.hub + if s.hub.lastSuccess && !(s.move m).hub.lastSuccess then 1 else 0
    else 0

-- What is counted move by move.
def countOver (f : System → Move → Nat) (s : System) : List Move → Nat
  | [] => 0
  | m :: rest => f s m + countOver f (s.move m) rest

-- How often the entity of an address is to take over a value in the course of a run.
def updatesDue (s : System) (a : Address) (moves : List Move) : Nat :=
  storingsSince s (s.play moves) a + countOver (·.writesIn a) s moves +
    countOver (·.broadcastsIn a) s moves

-- Whatever else may happen, an entity hears of broadcasts only.
theorem Hosts.moved_aside (h : s.Hosts e) {m : Move} (hm : ∀ id, m ≠ .step id) :
    (e.display s.hub).Moved
      (if s.hub.cache.contains e.coil.address then m.broadcasts s.hub else 0)
      (e.display (s.move m).hub) := by
  have hpresent := h.steady.hub
  have hsame : ∀ {t : System}, t.hub.displays = s.hub.displays →
      (e.display s.hub).Moved (if s.hub.cache.contains e.coil.address then 0 else 0)
        (e.display t.hub) := by
    intro t hdisplays
    unfold Entity.display
    rw [hdisplays, ite_self]
    exact .refl _
  cases m with
  | step id => exact absurd rfl (hm id)
  | spawn job => exact hsame rfl
  | stop id =>
      have hdisplays : (s.move (.stop id)).hub.displays = s.hub.displays := by
        unfold System.move
        dsimp only
        split <;> rfl
      exact hsame hdisplays
  | act action =>
      have hacted := Display.moved_takeOver (s.hub.cache.get? e.coil.address)
        (s.hub.broadcastsOfAct action) (e.display s.hub)
      rw [← Entity.display_act hpresent, ← Cache.contains_eq] at hacted
      exact hacted
  | attach coil =>
      have hdisplay : e.display (s.move (.attach coil)).hub = e.display s.hub := by
        have hseated := hpresent.seated
        simp [System.move, mapHub, Entity.attach, Hub.register, Entity.display,
          List.getElem?_append_left hseated]
      rw [hdisplay]
      exact hsame rfl
  | detach other => exact hsame rfl
  | gateway g => exact hsame rfl
  | nesting depth => exact hsame rfl
  | wait duration => exact hsame rfl
  | rouse woken => exact hsame rfl
  | forget => exact hsame rfl

-- A move makes an entity take over a value as often as it has to.
theorem Hosts.moved (h : s.Hosts e) (m : Move) :
    ∃ count, (s.move m).storings e.coil.address = s.storings e.coil.address + count ∧
      (e.display s.hub).Moved
        (count + s.writesIn e.coil.address m + s.broadcastsIn e.coil.address m)
        (e.display (s.move m).hub) := by
  have hs' := h.reachable.play [m]
  rcases move_cases s m with ⟨id, rfl, ht⟩ | ⟨hm, ha⟩
  · obtain ⟨deeds, count, hreckons⟩ := ht.reckons h hs'
    obtain ⟨deeds', hlog, hevolves⟩ := step_evolves h.reachable.orderly id
    obtain rfl : deeds = deeds' := List.append_cancel_left (hreckons.log.symm.trans hlog)
    have hsits := Entity.sits_of_evolves hevolves h.steady.hub hreckons.safe
    refine ⟨count, hreckons.storings, ?_⟩
    have hmoved := hsits.moved
    have hsum : (deeds.map e.heardAt).sum =
        count + s.writesIn e.coil.address (.step id) + s.broadcastsIn e.coil.address (.step id) := by
      have hturns := hreckons.turns hsits.called
      unfold writesIn broadcastsIn
      rw [deedsSince_of_log_eq hreckons.log]
      have hheard : (deeds.map e.heardAt).sum =
          (deeds.map e.turnsAt).sum + (deeds.map (Deed.broadcasts e.coil.address)).sum :=
        List.sum_map_add
      have hfalls : (if s.hub.cache.contains e.coil.address then
            Move.broadcasts s.hub (.step id) +
              if s.hub.lastSuccess && !(s.move (.step id)).hub.lastSuccess then 1 else 0
          else 0) =
          if s.hub.cache.contains e.coil.address &&
            (s.hub.lastSuccess && !(s.move (.step id)).hub.lastSuccess) then 1 else 0 := by
        cases s.hub.cache.contains e.coil.address <;> simp [Move.broadcasts]
      rw [hheard, hturns, hfalls]
      omega
    rwa [hsum] at hmoved
  · refine ⟨0, ?_, ?_⟩
    · refine storings_congr h.reachable hs' fun id => ?_
      unfold diary deeds
      rw [ha.journal]
    · have hmoved := h.moved_aside hm
      have hsum : (if s.hub.cache.contains e.coil.address then m.broadcasts s.hub else 0) =
          0 + s.writesIn e.coil.address m + s.broadcastsIn e.coil.address m := by
        simp [writesIn, broadcastsIn, ha.deedsSince_eq, ha.success]
      rwa [hsum] at hmoved

-- The induction is on the moves.
theorem Hosts.moved_play (h : s.Hosts e) {moves : List Move} (hmoves : ∀ m ∈ moves, m.Keeps e) :
    ∃ count, (s.play moves).storings e.coil.address = s.storings e.coil.address + count ∧
      (e.display s.hub).Moved (count + countOver (·.writesIn e.coil.address) s moves +
        countOver (·.broadcastsIn e.coil.address) s moves) (e.display (s.play moves).hub) := by
  induction moves generalizing s with
  | nil => exact ⟨0, rfl, .refl _⟩
  | cons m rest ih =>
      obtain ⟨count, hstorings, hmoved⟩ := h.moved m
      obtain ⟨more, hmore, hlater⟩ := ih (h.move (hmoves m List.mem_cons_self))
        fun m hmem => hmoves m (List.mem_cons_of_mem _ hmem)
      refine ⟨count + more, ?_, ?_⟩
      · rw [play_cons, hmore, hstorings, Nat.add_assoc]
      · have hsum : count + more + countOver (·.writesIn e.coil.address) s (m :: rest) +
            countOver (·.broadcastsIn e.coil.address) s (m :: rest) =
            count + s.writesIn e.coil.address m + s.broadcastsIn e.coil.address m +
              (more + countOver (·.writesIn e.coil.address) (s.move m) rest +
                countOver (·.broadcastsIn e.coil.address) (s.move m) rest) := by
          simp only [countOver]
          omega
        rw [play_cons, hsum]
        exact hmoved.trans hlater

-- The version of an entity that is attached while no refresh is under way, and stays attached, is the
-- number of refreshes that store a value for its coil, of writes of its coil that are acknowledged while
-- anything is cached and of broadcasts that are made while its coil is cached, modulo 2 ^ 32. It shows a
-- value if this number is not zero.
theorem version_counts (hs : s.Reachable)
    (hidle : ∀ id stage, s.stage? id = some stage → stage.cycle? = none) {coil : Coil}
    (he : (Entity.attach s.hub coil).1 = e) {moves : List Move} (hmoves : ∀ m ∈ moves, m.Keeps e) :
    (e.display ((s.move (.attach coil)).play moves).hub).version.toNat =
        updatesDue (s.move (.attach coil)) coil.address moves % 2 ^ 32 ∧
      ((e.display ((s.move (.attach coil)).play moves).hub).value ≠ none ↔
        updatesDue (s.move (.attach coil)) coil.address moves ≠ 0) := by
  subst he
  have hattached : (s.move (.attach coil)).Hosts (Entity.attach s.hub coil).1 := by
    refine ⟨hs.play [.attach coil], ?_, ?_⟩
    · exact Entity.present_attach hs.furnished hs.seated hs.documented.unique coil
    · intro id stage cycle hst hcycle
      rw [hidle id stage hst] at hcycle
      cases hcycle
  have hnew : (Entity.attach s.hub coil).1.display (s.move (.attach coil)).hub = {} := by
    simp [move, mapHub, Entity.attach, Entity.display, Hub.register]
  obtain ⟨count, hstorings, hmoved⟩ := hattached.moved_play hmoves
  have hsince := storings_play hattached.reachable hidle moves coil.address
  have hcount : count = storingsSince (s.move (.attach coil))
      ((s.move (.attach coil)).play moves) coil.address :=
    Nat.add_left_cancel (hstorings.symm.trans hsince)
  rw [hnew, hcount] at hmoved
  have htold : ({} : Display).Moved (updatesDue (s.move (.attach coil)) coil.address moves)
      ((Entity.attach s.hub coil).1.display ((s.move (.attach coil)).play moves).hub) := hmoved
  refine ⟨?_, ?_⟩
  · rw [htold.version, UInt32.zero_add]
    exact UInt32.toNat_ofNat'
  · rw [htold.shown]
    simp

def attended : System := (fresh {} .f1155 { source := .echo }).move (.attach thermometer.coil)

-- A cycle, a write, a broadcast on request, and a cycle that fails.
def eventful : List Move :=
  firstCycle ++ thenWrite ++ [.act .notify, .gateway (faulty (.fatal "")), .spawn .cycle] ++
    .replicate 4 (.step 2)

theorem version_counts_eventful :
    storingsSince attended (attended.play eventful) 1 = 1 ∧
      countOver (·.writesIn 1) attended eventful = 1 ∧
      countOver (·.broadcastsIn 1) attended eventful = 2 ∧
      (thermometer.display (attended.play eventful).hub).version.toNat = 4 ∧
      (thermometer.display (attended.play eventful).hub).value ≠ none := by
  have hstorings : storingsSince attended (attended.play eventful) 1 = 1 := by decide
  have hwrites : countOver (·.writesIn 1) attended eventful = 1 := by decide
  have hbroadcasts : countOver (·.broadcastsIn 1) attended eventful = 2 := by decide
  have hdue : updatesDue attended thermometer.coil.address eventful = 4 := by
    show updatesDue attended 1 eventful = 4
    rw [updatesDue, hstorings, hwrites, hbroadcasts]
  have hidle : ∀ id stage, (fresh {} .f1155 { source := .echo }).stage? id = some stage →
      stage.cycle? = none := by
    intro id stage hst
    cases hst
  have hmoves : ∀ m ∈ eventful, m.Keeps thermometer := by
    simp [eventful, firstCycle, thenWrite, Move.Keeps]
  have he : (Entity.attach (fresh {} .f1155 { source := .echo }).hub thermometer.coil).1 =
      thermometer := by decide
  have hcounts : (thermometer.display (attended.play eventful).hub).version.toNat =
        updatesDue attended thermometer.coil.address eventful % 2 ^ 32 ∧
      ((thermometer.display (attended.play eventful).hub).value ≠ none ↔
        updatesDue attended thermometer.coil.address eventful ≠ 0) :=
    version_counts ⟨_, _, _, [], rfl⟩ hidle he hmoves
  rw [hdue] at hcounts
  exact ⟨hstorings, hwrites, hbroadcasts, hcounts.1, hcounts.2.mpr (by decide)⟩

end System

end CoilHub
