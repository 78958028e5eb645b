import CoilHub.Proofs.Interleaving.Locks
import Mathlib.Data.List.Basic
import Mathlib.Data.Nat.Pairing

namespace CoilHub

namespace Lock

theorem holder_eq {l : Lock} (h : l.Fair) : l.holder = l.queue.head? := by
  cases hl : l.holder with
  | none => simp [queue, hl, h hl]
  | some id => simp [queue, hl]

-- Somebody comes, or the holder goes. Nobody who goes comes back at once.
def Advances (l next : Lock) : Prop :=
  next = l ∨ (∃ id, next = l.request id) ∨ next = l.release

theorem advances_same (l : Lock) : l.Advances l := .inl rfl

theorem advances_request (l : Lock) (id : TaskId) : l.Advances (l.request id) :=
  .inr (.inl ⟨id, rfl⟩)

theorem advances_release (l : Lock) : l.Advances l.release := .inr (.inr rfl)

theorem Advances.queue {l next : Lock} (h : l.Advances next) (hfair : l.Fair) :
    (∃ more, next.queue = l.queue ++ more) ∨ next.queue = l.queue.tail := by
  rcases h with rfl | ⟨id, rfl⟩ | rfl
  · exact .inl ⟨[], (List.append_nil _).symm⟩
  · exact .inl ⟨[id], queue_request hfair id⟩
  · exact .inr (queue_release hfair)

-- A lock at every moment of a run.
structure Runs (l : Nat → Lock) : Prop where
  fair : ∀ n, (l n).Fair
  once : ∀ n, (l n).queue.Nodup
  advances : ∀ n, (l n).Advances (l (n + 1))

namespace Runs

variable {l : Nat → Lock} {id : TaskId} {n : Nat} (h : Runs l)
include h

-- A holder that stays in the queue stays the holder.
theorem holder_succ (hl : (l n).holder = some id) (hid : id ∈ (l (n + 1)).queue) :
    (l (n + 1)).holder = some id := by
  have hq := Serves.queue_of_holder hl
  rw [holder_eq (h.fair _)]
  rcases (h.advances n).queue (h.fair n) with ⟨more, hnext⟩ | hnext
  · rw [hnext, hq]
    rfl
  · have honce := h.once n
    rw [hq] at honce hnext
    rw [hnext] at hid
    exact absurd hid (List.nodup_cons.mp honce).1

theorem holder_of_le (hl : (l n).holder = some id) (hid : ∀ k, n ≤ k → id ∈ (l k).queue) (k : Nat)
    (hk : n ≤ k) : (l k).holder = some id := by
  induction k, hk using Nat.le_induction with
  | base => exact hl
  | succ k hk ih => exact h.holder_succ ih (hid (k + 1) (Nat.le_succ_of_le hk))

-- Somebody who waits comes closer when the holder goes.
theorem closer {first : TaskId} (hfirst : (l n).holder = some first) (hid : id ∈ (l n).queue)
    (hne : ∀ k, n ≤ k → (l k).holder ≠ some id) (k : Nat) (hk : n ≤ k) :
    id ∈ (l k).queue ∧ ((l k).queue.idxOf id < (l n).queue.idxOf id ∨
      (l k).queue.idxOf id = (l n).queue.idxOf id ∧ (l k).holder = some first) := by
  induction k, hk using Nat.le_induction with
  | base => exact ⟨hid, .inr ⟨rfl, hfirst⟩⟩
  | succ k hk ih =>
      obtain ⟨hmem, hindex⟩ := ih
      have hholder := holder_eq (h.fair (k + 1))
      have hwaits := hne k hk
      rw [holder_eq (h.fair k)] at hwaits hindex
      rw [hholder]
      rcases (h.advances k).queue (h.fair k) with ⟨more, hnext⟩ | hnext
      · -- those who come stand behind those who are there
        have hsame : (l (k + 1)).queue.idxOf id = (l k).queue.idxOf id := by
          rw [hnext, List.idxOf_append_of_mem hmem]
        rw [hsame]
        refine ⟨hnext ▸ List.mem_append_left more hmem, ?_⟩
        rcases hindex with hlt | ⟨heq, hhead⟩
        · exact .inl hlt
        · refine .inr ⟨heq, ?_⟩
          rw [hnext, List.head?_append, hhead]
          rfl
      · obtain ⟨head, rest, hcons⟩ := List.exists_cons_of_ne_nil (List.ne_nil_of_mem hmem)
        rw [hcons] at hmem hindex hwaits hnext
        have hhead : head ≠ id := fun heq => hwaits (congrArg some heq)
        have hrest : id ∈ rest := (List.mem_cons.mp hmem).resolve_left hhead.symm
        rw [List.idxOf_cons_ne rest hhead] at hindex
        rw [hnext, List.tail_cons]
        refine ⟨hrest, .inl ?_⟩
        rcases hindex with hlt | ⟨heq, -⟩ <;> omega

-- The induction is on the place in the queue.
theorem served (hleaves : ∀ n id, (l n).holder = some id → ∃ k, n ≤ k ∧ id ∉ (l k).queue)
    (hid : id ∈ (l n).queue) : ∃ k, n ≤ k ∧ (l k).holder = some id := by
  induction hp : (l n).queue.idxOf id using Nat.strongRecOn generalizing n with
  | ind p ih =>
      by_cases hnever : ∀ k, n ≤ k → (l k).holder ≠ some id
      · obtain ⟨first, hfirst⟩ : ∃ first, (l n).holder = some first := by
          rw [holder_eq (h.fair n)]
          obtain ⟨first, rest, hcons⟩ := List.exists_cons_of_ne_nil (List.ne_nil_of_mem hid)
          exact ⟨first, by rw [hcons]; rfl⟩
        obtain ⟨k, hk, hleft⟩ := hleaves n first hfirst
        obtain ⟨hmem, hlt | ⟨-, hstill⟩⟩ := h.closer hfirst hid hnever k hk
        · obtain ⟨m, hm, hserved⟩ := ih _ (hp ▸ hlt) hmem rfl
          exact ⟨m, Nat.le_trans hk hm, hserved⟩
        · rw [Serves.queue_of_holder hstill] at hleft
          exact absurd List.mem_cons_self hleft
      · push Not at hnever
        exact hnever

end Runs

end Lock

namespace System

-- The state after so many moves.
def states (s : System) (moves : Nat → Move) : Nat → System
  | 0 => s
  | n + 1 => (states s moves n).move (moves n)

-- A task that can go on for good does go on.
def Fair (s : System) (moves : Nat → Move) : Prop :=
  ∀ id n, (∀ k, n ≤ k → (s.states moves k).enabled id = true) → ∃ k, n ≤ k ∧ moves k = .step id

variable {s : System} {moves : Nat → Move}

-- A property that a move preserves.
theorem states_of_le {P : System → Prop} (hstep : ∀ s m, P s → P (s.move m)) {n k : Nat}
    (hk : n ≤ k) (h : P (s.states moves n)) : P (s.states moves k) := by
  induction k, hk using Nat.le_induction with
  | base => exact h
  | succ k hk ih => exact hstep _ _ ih

theorem job?_states {id : TaskId} {job : Job} {n k : Nat} (hk : n ≤ k)
    (hjob : (s.states moves n).job? id = some job) : (s.states moves k).job? id = some job :=
  states_of_le (P := fun t => t.job? id = some job) (fun _ m h => job?_move h m) hk hjob

theorem job?_states_eq {id : TaskId} {job job' : Job} {n k : Nat} (hjob : (s.states moves n).job? id = some job)
    (hjob' : (s.states moves k).job? id = some job') : job' = job := by
  rcases Nat.le_total n k with hk | hk
  · have hlater := job?_states hk hjob
    rw [hjob'] at hlater
    exact Option.some.inj hlater
  · have hlater := job?_states hk hjob'
    rw [hjob] at hlater
    exact (Option.some.inj hlater).symm

theorem Reachable.states (h : s.Reachable) (n : Nat) : (s.states moves n).Reachable :=
  states_of_le (P := Reachable) (fun _ m hs => hs.play [m]) (Nat.zero_le n) h

-- The run that is left after so many moves.
theorem states_add (s : System) (moves : Nat → Move) (n k : Nat) :
    (s.states moves n).states (fun j => moves (n + j)) k = s.states moves (n + k) := by
  induction k with
  | zero => rfl
  | succ k ih => exact congrArg (move · (moves (n + k))) ih

theorem Fair.later (h : s.Fair moves) (n : Nat) :
    (s.states moves n).Fair fun j => moves (n + j) := by
  intro id first hcan
  obtain ⟨k, hk, hstep⟩ := h id (n + first) fun k hk => by
    obtain ⟨j, rfl⟩ := Nat.exists_eq_add_of_le hk
    rw [Nat.add_assoc, ← states_add]
    exact hcan (first + j) (Nat.le_add_right first j)
  obtain ⟨j, rfl⟩ := Nat.exists_eq_add_of_le hk
  rw [Nat.add_assoc] at hstep
  exact ⟨first + j, Nat.le_add_right first j, hstep⟩

-- A run that begins with a certain move.
def led (m : Move) (moves : Nat → Move) : Nat → Move
  | 0 => m
  | n + 1 => moves n

theorem states_led (s : System) (m : Move) (moves : Nat → Move) (n : Nat) :
    s.states (led m moves) (n + 1) = (s.move m).states moves n := by
  induction n with
  | zero => rfl
  | succ n ih => exact congrArg (move · (moves n)) ih

theorem fair_led {m : Move} (h : (s.move m).Fair moves) : s.Fair (led m moves) := by
  intro id n hcan
  obtain ⟨k, hk, hstep⟩ := h id n fun k hk => by
    rw [← states_led]
    exact hcan (k + 1) (Nat.le_succ_of_le hk)
  exact ⟨k + 1, Nat.le_succ_of_le hk, hstep⟩

-- Tasks that take turns make a fair run.
theorem fair_turns (s : System) : s.Fair fun n => .step n.unpair.2 := by
  intro id n _
  exact ⟨Nat.pair n id, Nat.left_le_pair n id, by simp⟩

end System

end CoilHub
