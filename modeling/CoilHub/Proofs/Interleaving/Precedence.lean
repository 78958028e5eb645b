import CoilHub.Proofs.Interleaving.Service

namespace CoilHub

namespace Lock

-- One task is at a lock ahead of another one.
def Ahead (l : Lock) (i j : TaskId) : Prop := [i, j].Sublist l.queue

namespace Ahead

variable {l next : Lock} {i j : TaskId} {rest more : List TaskId}

theorem left_mem (h : l.Ahead i j) : i ∈ l.queue := h.subset List.mem_cons_self

theorem ne (h : l.Ahead i j) (honce : l.queue.Nodup) : i ≠ j := by
  have hboth := h.nodup honce
  simpa using hboth

theorem of_holder (hl : l.holder = some i) (hj : j ∈ l.queue) (hne : j ≠ i) : l.Ahead i j := by
  unfold Ahead
  rw [Serves.queue_of_holder hl] at hj ⊢
  exact (List.singleton_sublist.mpr ((List.mem_cons.mp hj).resolve_left hne)).cons_cons i

theorem not_holder (h : l.Ahead i j) (honce : l.queue.Nodup) : l.holder ≠ some j := by
  intro hl
  unfold Ahead at h
  rw [Serves.queue_of_holder hl] at h honce
  obtain ⟨hnot, -⟩ := List.nodup_cons.mp honce
  cases h with
  | cons _ hrest => exact hnot (hrest.subset (List.mem_cons_of_mem i List.mem_cons_self))
  | cons_cons _ hrest => exact hnot (hrest.subset List.mem_cons_self)

theorem append (h : l.Ahead i j) (hnext : next.queue = l.queue ++ more) : next.Ahead i j := by
  unfold Ahead
  rw [hnext]
  exact h.trans (List.sublist_append_left _ more)

-- Those who are there are ahead of those who come.
theorem of_append (hi : i ∈ l.queue) (hj : j ∈ more) (hnext : next.queue = l.queue ++ more) :
    next.Ahead i j := by
  unfold Ahead
  rw [hnext]
  exact (List.singleton_sublist.mpr hi).append (List.singleton_sublist.mpr hj)

theorem tail (h : l.Ahead i j) (hl : l.holder ≠ some i) (hfair : l.Fair)
    (hnext : next.queue = l.queue.tail ++ more) : next.Ahead i j := by
  rw [holder_eq hfair] at hl
  unfold Ahead at h ⊢
  rw [hnext]
  cases hq : l.queue with
  | nil =>
      rw [hq] at h
      cases h
  | cons head rest =>
      rw [hq] at h hl
      cases h with
      | cons _ hrest => exact hrest.trans (List.sublist_append_left _ more)
      | cons_cons _ hrest => exact absurd rfl hl

-- Whoever is ahead of somebody who has been there for some time has been there, too.
theorem of_mem (h : next.Ahead i j) (honce : next.queue.Nodup) (hnext : next.queue = rest ++ more)
    (hj : j ∈ rest) : [i, j].Sublist rest := by
  unfold Ahead at h
  rw [hnext] at h honce
  obtain ⟨first, last, hboth, hfirst, hlast⟩ := List.sublist_append_iff.mp h
  have hnot : j ∉ last := fun hmem =>
    (List.nodup_append.mp honce).2.2 j hj j (hlast.subset hmem) rfl
  match first, hboth with
  | [], hboth =>
      rw [List.nil_append] at hboth
      exact absurd (hboth ▸ List.mem_cons_of_mem i List.mem_cons_self) hnot
  | [_], hboth =>
      rw [List.singleton_append, List.cons.injEq] at hboth
      exact absurd (hboth.2 ▸ List.mem_cons_self) hnot
  | _ :: _ :: _, hboth =>
      have hnil : last = [] := by
        have hlength := congrArg List.length hboth
        simp only [List.length_cons, List.length_nil, List.length_append] at hlength
        exact List.eq_nil_of_length_eq_zero (by omega)
      rw [hboth, hnil, List.append_nil]
      exact hfirst

end Ahead

end Lock

namespace System

variable {s : System} {h i j : TaskId}

-- The holder of the transport stays the first one there until it passes it on.
theorem Orderly.holder_move (ho : s.Orderly) (hl : s.transport.holder = some h) (m : Move) :
    ((∃ more, (s.move m).transport.queue = s.transport.queue ++ more) ∧
        ((s.move m).stage? h = s.stage? h ∨ (s.move m).isAt Stage.hasTransport h = true)) ∨
      m = .step h ∧ ∃ more, (s.move m).transport.queue = s.transport.queue.tail ++ more ∧
        ∀ id ∈ more, ∃ cycle, (s.move m).stage? id = some (.awaitingTransport cycle) := by
  obtain ⟨stage, hst, hwants⟩ := ho.stage_of_holder hl
  by_cases hturn : m = .step h ∧ s.enabled h = true
  · obtain ⟨rfl, he⟩ := hturn
    have hfair : s.transport.Fair := ho.transport.fair
    rcases (step_turn s h).with_transport hst hwants he ho with
      ⟨next, hnext, hhas, hsame, -⟩ | hrelease | ⟨hrequeue, hcycle⟩
    · refine .inl ⟨⟨[], ?_⟩, .inr ?_⟩
      · rw [move, hsame, List.append_nil]
      · simp [move, isAt, hnext, hhas]
    · refine .inr ⟨rfl, [], ?_, fun _ hid => absurd hid List.not_mem_nil⟩
      rw [move, hrelease, Lock.queue_release hfair, List.append_nil]
    · refine .inr ⟨rfl, [h], ?_, ?_⟩
      · rw [move, hrequeue, Lock.queue_request Lock.fair_release, Lock.queue_release hfair]
      · intro id hid
        rw [List.mem_singleton.mp hid]
        exact hcycle
  · have hblocked : m = .step h → s.enabled h = false :=
      fun hm => Bool.eq_false_iff.mpr fun he => hturn ⟨hm, he⟩
    obtain ⟨job, hjob⟩ := job?_of_stage? hst
    have hdrift := not_drift_of_wants ho hjob hst (.inr hwants)
    have hstill := (still_move hjob hdrift hst hblocked).1
    exact .inl ⟨(ho.meanwhile hl m hblocked).2, .inl (hstill.trans hst.symm)⟩

theorem Orderly.queue_move (ho : s.Orderly) (m : Move) :
    (∃ more, (s.move m).transport.queue = s.transport.queue ++ more) ∨
      ∃ h, m = .step h ∧ s.transport.holder = some h ∧
        ∃ more, (s.move m).transport.queue = s.transport.queue.tail ++ more ∧
          ∀ id ∈ more, ∃ cycle, (s.move m).stage? id = some (.awaitingTransport cycle) := by
  cases hl : s.transport.holder with
  | none =>
      have hempty : s.transport.queue = [] := by
        simp [Lock.queue, hl, ho.transport.fair hl]
      exact .inl ⟨(s.move m).transport.queue, by rw [hempty, List.nil_append]⟩
  | some first =>
      rcases ho.holder_move hl m with ⟨hmore, -⟩ | ⟨hm, hpasses⟩
      · exact .inl hmore
      · exact .inr ⟨first, hm, rfl, hpasses⟩

-- Somebody who is ahead of another one stays so until it passes the transport on. After that it is
-- there only if it is a refresh that has asked for the transport once more.
theorem Orderly.ahead_move (ho : s.Orderly) (hahead : s.transport.Ahead i j) (m : Move) :
    (s.move m).transport.Ahead i j ∨ m = .step i ∧
      (i ∈ (s.move m).transport.queue →
        ∃ cycle, (s.move m).stage? i = some (.awaitingTransport cycle)) := by
  rcases ho.queue_move m with ⟨more, hmore⟩ | ⟨first, hm, hl, more, hmore, hback⟩
  · exact .inl (hahead.append hmore)
  · by_cases hi : i = first
    · subst hi
      refine .inr ⟨hm, fun hmem => ?_⟩
      have honce := ho.transport.once
      rw [Lock.Serves.queue_of_holder hl] at honce hmore
      rw [hmore] at hmem
      exact hback i ((List.mem_append.mp hmem).resolve_left (List.nodup_cons.mp honce).1)
    · refine .inl (hahead.tail ?_ ho.transport.fair hmore)
      rw [hl]
      exact fun heq => hi (Option.some.inj heq).symm

-- Nobody gets ahead of somebody who waits.
theorem Orderly.ahead_of_move (ho : s.Orderly) (m : Move)
    (hahead : (s.move m).transport.Ahead i j) (hj : j ∈ s.transport.queue)
    (hstill : m = .step j → s.enabled j = false) : s.transport.Ahead i j := by
  have honce := (orderly_move s m ho).transport.once
  by_cases hm : m = .step j
  · have hsame : s.move m = s := by
      rw [hm]
      exact step_of_not_enabled (hstill hm)
    rwa [hsame] at hahead
  · rcases ho.queue_move m with ⟨more, hmore⟩ | ⟨first, hturn, hl, more, hmore, -⟩
    · exact hahead.of_mem honce hmore hj
    · have hq := Lock.Serves.queue_of_holder hl
      have hne : j ≠ first := by
        rintro rfl
        exact hm hturn
      have hrest : j ∈ s.transport.queue.tail := by
        rw [hq] at hj ⊢
        exact (List.mem_cons.mp hj).resolve_left hne
      exact (hahead.of_mem honce hmore hrest).trans (List.tail_sublist _)

-- A task that passes the transport on is not ahead of those who wait for it.
theorem Orderly.not_ahead_of_passed (ho : s.Orderly) {m : Move} {more : List TaskId}
    (hl : s.transport.holder = some i) (hj : j ∈ s.transport.queue) (hne : j ≠ i)
    (hmore : (s.move m).transport.queue = s.transport.queue.tail ++ more) :
    ¬(s.move m).transport.Ahead i j := by
  intro hahead
  have honce := ho.transport.once
  have hq := Lock.Serves.queue_of_holder hl
  rw [hq] at hj honce hmore
  have hrest := hahead.of_mem (orderly_move s m ho).transport.once hmore
    ((List.mem_cons.mp hj).resolve_left hne)
  exact (List.nodup_cons.mp honce).1 (hrest.subset List.mem_cons_self)

variable {moves : Nat → Move} {n k : Nat}

section

variable (hs : s.Reachable)
include hs

theorem ahead_states (hk : n ≤ k) (hahead : (s.states moves n).transport.Ahead i j)
    (hstays : ∀ m, n < m → m ≤ k → i ∈ (s.states moves m).transport.queue ∧
      ∀ cycle, (s.states moves m).stage? i ≠ some (.awaitingTransport cycle)) :
    (s.states moves k).transport.Ahead i j := by
  induction k, hk using Nat.le_induction with
  | base => exact hahead
  | succ k hk ih =>
      have hnow := ih fun m hm hle => hstays m hm (Nat.le_succ_of_le hle)
      obtain ⟨hmem, hnot⟩ := hstays (k + 1) (Nat.lt_succ_of_le hk) (Nat.le_refl _)
      rcases (hs.states k).orderly.ahead_move hnow (moves k) with hnext | ⟨-, hcycle⟩
      · exact hnext
      · obtain ⟨cycle, hst⟩ := hcycle hmem
        exact absurd hst (hnot cycle)

theorem ahead_of_states (hk : n ≤ k) (hahead : (s.states moves k).transport.Ahead i j)
    (hj : ∀ m, n ≤ m → m ≤ k → j ∈ (s.states moves m).transport.queue)
    (hp : Pauses s moves j n k) : (s.states moves n).transport.Ahead i j := by
  induction k, hk using Nat.le_induction with
  | base => exact hahead
  | succ k hk ih =>
      refine ih ?_ (fun m hm hle => hj m hm (Nat.le_succ_of_le hle)) (hp.mono (Nat.le_succ k))
      exact (hs.states k).orderly.ahead_of_move (moves k) hahead (hj k hk (Nat.le_succ k))
        (hp k hk (Nat.lt_succ_self k))

end

end System

end CoilHub
