import CoilHub.Proofs.Interleaving.Evolution

namespace CoilHub

theorem split_append {α : Type} {l more before after : List α} {x : α}
    (h : l ++ more = before ++ x :: after) :
    (∃ rest, l = before ++ x :: rest ∧ after = rest ++ more) ∨
      ∃ first, before = l ++ first ∧ more = first ++ x :: after := by
  rcases List.append_eq_append_iff.mp h with ⟨first, hb, hm⟩ | ⟨tail, hd, hm⟩
  · exact .inr ⟨first, hb, hm⟩
  · cases tail with
    | nil => exact .inr ⟨[], by simpa using hd.symm, by simpa using hm.symm⟩
    | cons first rest =>
        rw [List.cons_append] at hm
        injection hm with hfirst hrest
        subst hfirst
        exact .inl ⟨rest, hd, hrest⟩

namespace Hub

variable {job : Job} {hub m next : Hub} {ls : List HubListener}

theorem Does.calls_of_split {first after : List Deed}
    (h : m.Does job (first ++ .calls hub ls :: after) next) :
    first = [] ∧ after = [] ∧ hub = m ∧ m.Calls ls next := by
  generalize hdeeds : first ++ .calls hub ls :: after = deeds at h
  cases first with
  | cons deed first => cases h <;> simp at hdeeds
  | nil =>
      cases h with
      | calls hcalls =>
          injection hdeeds with hdeed hafter
          injection hdeed with hhub hls
          subst hls
          exact ⟨rfl, hafter, hhub, hcalls⟩
      | remarks hdeed =>
          injection hdeeds with heq
          subst heq
          cases hdeed
      | _ => cases hdeeds

-- The calls that a deed tells of have been made, between what came before them and what came after.
theorem Enacts.split {start : Hub} {deeds before after : List Deed} (h : start.Enacts job deeds hub)
    (hdeeds : deeds = before ++ .calls m ls :: after) :
    ∃ next, start.Enacts job before m ∧ m.Calls ls next ∧ next.Enacts job after hub := by
  induction h generalizing after with
  | starts => simp at hdeeds
  | @goesOn deeds more reached last h hdoes ih =>
      rcases split_append hdeeds with ⟨rest, hold, rfl⟩ | ⟨first, rfl, rfl⟩
      · obtain ⟨next, hbefore, hcalls, hafter⟩ := ih hold
        exact ⟨next, hbefore, hcalls, hafter.goesOn hdoes⟩
      · obtain ⟨rfl, rfl, rfl, hcalls⟩ := hdoes.calls_of_split
        rw [List.append_nil]
        exact ⟨last, h, hcalls, .starts⟩

end Hub

namespace System

variable {s : System} {id : TaskId}

def Move.isTurnOf (id : TaskId) : Move → Bool
  | .step j => decide (j = id)
  | _ => false

-- The states in which a task takes its turns in the course of some moves.
def turns (s : System) (id : TaskId) : List Move → List System
  | [] => []
  | m :: rest => (if m.isTurnOf id then [s] else []) ++ turns (s.move m) id rest

-- Whatever run led here, the deeds of a task are those of its turns, one after another, and each turn made
-- of the hub what its deeds say.
def CarriedOut (s : System) (id : TaskId) : Prop :=
  ∀ settings model gateway moves, s = (fresh settings model gateway).play moves →
    s.deeds id = ((fresh settings model gateway).turns id moves).flatMap
      (fun turn => deedsSince turn (turn.step id)) ∧
    ∀ turn ∈ (fresh settings model gateway).turns id moves, ∀ job, s.job? id = some job →
      turn.hub.Enacts job (deedsSince turn (turn.step id)) (turn.step id).hub

-- A listener is called in the course of a move and finds the hub in this state. A task calls it in its turn,
-- or somebody who is no task notifies everybody.
inductive Finds (l : HubListener) (found : Hub) (s : System) : Move → Prop
  | turn {id : TaskId} {job : Job} {before after : List Deed} {hub next : Hub} {ls : List HubListener}
    (hjob : s.job? id = some job)
    (hdeeds : deedsSince s (s.step id) = before ++ .calls hub ls :: after)
    (hbefore : s.hub.Enacts job before hub) (hcalls : hub.Calls ls next)
    (hafter : next.Enacts job after (s.step id).hub) (h : Hub.Finds l found hub.nesting hub ls) :
    Finds l found s (.step id)
  | aside (h : Hub.Finds l found s.hub.nesting s.hub s.hub.registry.listeners) :
    Finds l found s (.act .notify)

-- Whoever is called by a task according to its deeds is really called.
theorem finds_of_calls (ho : s.Orderly) {hub : Hub} {ls : List HubListener} {l : HubListener}
    (hmem : .calls hub ls ∈ deedsSince s (s.step id)) (hl : l ∈ ls) :
    ∃ found, Finds l found s (.step id) ∧ hub.Kept found := by
  obtain ⟨before, after, hdeeds⟩ := List.append_of_mem hmem
  cases hjob : s.job? id with
  | none =>
      rw [step_of_no_job hjob, deedsSince_self] at hmem
      cases hmem
  | some job =>
      obtain ⟨next, hbefore, hcalls, hafter⟩ := (hub_enacts_step ho hjob).split hdeeds
      obtain ⟨found, hfinds⟩ := hub.exists_finds hub.nesting hl
      exact ⟨found, .turn hjob hdeeds hbefore hcalls hafter hfinds, hfinds.kept⟩

-- The induction is on the moves.
theorem exists_turn_of_deed {moves : List Move} {deed : Deed}
    (h : deed ∈ deedsSince s (s.play moves)) :
    ∃ before j after, moves = before ++ .step j :: after ∧
      deed ∈ deedsSince (s.play before) ((s.play before).step j) := by
  induction moves generalizing s with
  | nil =>
      rw [play_nil, deedsSince_self] at h
      cases h
  | cons m rest ih =>
      rw [deedsSince_play_cons, List.mem_append] at h
      rcases h with h | h
      · rcases move_cases s m with ⟨j, rfl, -⟩ | ⟨-, ha⟩
        · exact ⟨[], j, rest, rfl, h⟩
        · rw [ha.deedsSince_eq] at h
          cases h
      · obtain ⟨before, j, after, rfl, hdeed⟩ := ih h
        exact ⟨m :: before, j, after, rfl, hdeed⟩

theorem deeds_move (s : System) (m : Move) (id : TaskId) :
    (s.move m).deeds id =
      s.deeds id ++ if m.isTurnOf id then deedsSince s (s.step id) else [] := by
  rcases move_cases s m with ⟨j, rfl, ht⟩ | ⟨hm, ha⟩
  · show (s.step j).deeds id = s.deeds id ++ if decide (j = id) then _ else _
    change Turn j s (s.step j) at ht
    by_cases hj : j = id
    · subst hj
      rw [decide_eq_true rfl, if_pos rfl]
      rcases ht.turned with heq | ⟨stage, cycleLock, transport, cache, success, deeds, h⟩
      · rw [heq, deedsSince_self, List.append_nil]
      · rw [h.deeds_self, deedsSince_of_log_eq h.log_eq]
    · rw [decide_eq_false hj, if_neg Bool.false_ne_true, List.append_nil]
      rcases ht.turned with heq | ⟨stage, cycleLock, transport, cache, success, deeds, h⟩
      · rw [heq]
      · exact h.deeds_other (Ne.symm hj)
  · have hno : m.isTurnOf id = false := by
      cases m with
      | step j => exact absurd rfl (hm j)
      | _ => rfl
    rw [hno, if_neg Bool.false_ne_true, List.append_nil]
    unfold System.deeds
    rw [ha.journal]

-- The induction is on the moves.
theorem deeds_play (s : System) (moves : List Move) (id : TaskId) :
    (s.play moves).deeds id =
      s.deeds id ++ (s.turns id moves).flatMap fun turn => deedsSince turn (turn.step id) := by
  induction moves generalizing s with
  | nil => simp [turns]
  | cons m rest ih =>
      rw [play_cons, ih, deeds_move, turns, List.append_assoc]
      cases m.isTurnOf id <;> simp

theorem enacts_turns (hs : s.Reachable) {moves : List Move} {job : Job}
    (hjob : (s.play moves).job? id = some job) :
    ∀ turn ∈ s.turns id moves,
      turn.hub.Enacts job (deedsSince turn (turn.step id)) (turn.step id).hub := by
  induction moves generalizing s with
  | nil => simp [turns]
  | cons m rest ih =>
      intro turn hturn
      rcases List.mem_append.mp hturn with hturn | hturn
      · obtain rfl : turn = s := by
          cases hown : m.isTurnOf id with
          | true => simpa [hown] using hturn
          | false => simp [hown] at hturn
        cases hown : turn.job? id with
        | none =>
            rw [step_of_no_job hown, deedsSince_self]
            exact .starts
        | some own =>
            have hsame := job?_play hown (m :: rest)
            rw [hjob] at hsame
            cases hsame
            exact hub_enacts_step hs.orderly hown
      · exact ih (hs.play [m]) hjob turn hturn

theorem carriedOut (s : System) (id : TaskId) : s.CarriedOut id := by
  rintro settings model gateway moves rfl
  refine ⟨deeds_play _ moves id, ?_⟩
  intro turn hturn job hjob
  exact enacts_turns ⟨settings, model, gateway, [], rfl⟩ hjob turn hturn

end System

end CoilHub
