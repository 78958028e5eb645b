import CoilHub.Retry
import Mathlib.Algebra.Ring.Nat
import Mathlib.Tactic.ByContra

namespace CoilHub

namespace Retry

variable {α : Type} (attempts : Nat → Attempt α) (cancelAt : Option Nat) (cancelled : Bool)

-- When an attempt starts, if it starts at all.
def startTime (n : Nat) : Nat := ((List.range' 1 (n - 1)).map fun m => (attempts m).delay).sum

-- Whether an attempt before this one cancels everything.
def CancelledByAttempt (n : Nat) : Prop :=
  ∃ m, 1 ≤ m ∧ m < n ∧ ((attempts m).cancels || (attempts m).cancelsAtEnd) = true

-- Whether all is cancelled before this attempt would start.
def CancelledBefore (n : Nat) : Prop :=
  cancelled = true ∨ CancelledByAttempt attempts n ∨ timeUp cancelAt (startTime attempts n) = true

-- Whether all is cancelled while this attempt takes its time.
def CancelledAmid (n : Nat) : Prop :=
  (attempts n).delay ≠ 0 ∧ ((attempts n).cancels = true ∨
    timeUp cancelAt (startTime attempts n + (attempts n).delay) = true)

def Transient (result : FetchResult α) : Prop := ∃ e, result = .error e ∧ e.isTransient = true

-- What the result of an attempt comes to if it is the last one.
inductive Verdict (bound n : Nat) : FetchResult α → Except RetryError α → Prop
  | value (v : α) : Verdict bound n (.ok v) (.ok v)
  | rejected {e : FetchError} : e.isTransient = false → Verdict bound n (.error e) (.error (.rejected e))
  | exhausted {e : FetchError} : e.isTransient = true → n = bound →
      Verdict bound n (.error e) (.error (.exhausted n e))

-- The ways in which attempts end: all is cancelled before the next one, or amid the last one, or the last
-- one comes to its end.
inductive Ending (bound k : Nat) : Except RetryError α → Prop
  | before : k < bound → CancelledBefore attempts cancelAt cancelled (k + 1) →
      (∀ n, 1 ≤ n → n ≤ k → Transient (attempts n).result ∧ ¬CancelledAmid attempts cancelAt n) →
      Ending bound k (.error .cancelled)
  | amid : 1 ≤ k → CancelledAmid attempts cancelAt k → Ending bound k (.error .cancelled)
  | verdict {outcome : Except RetryError α} : 1 ≤ k → ¬CancelledAmid attempts cancelAt k →
      Verdict bound k (attempts k).result outcome → Ending bound k outcome

-- Attempts that ended after number `k`.
structure Ends (bound k : Nat) (outcome : Except RetryError α) : Prop where
  bounded : k ≤ bound
  retried : ∀ n, 1 ≤ n → n < k → Transient (attempts n).result ∧ ¬CancelledAmid attempts cancelAt n
  prompt : ∀ n, 1 ≤ n → n ≤ k → ¬CancelledBefore attempts cancelAt cancelled n
  ending : Ending attempts cancelAt cancelled bound k outcome

-- Attempts that have got as far as this one, which is to start now unless all is cancelled.
structure Arrives (n now : Nat) (flag : Bool) : Prop where
  now : now = startTime attempts n
  flag : flag = true ↔ cancelled = true ∨ CancelledByAttempt attempts n
  failed : ∀ m, 1 ≤ m → m < n → Transient (attempts m).result ∧ ¬CancelledAmid attempts cancelAt m
  prompt : ∀ m, 1 ≤ m → m < n → ¬CancelledBefore attempts cancelAt cancelled m

variable {attempts cancelAt cancelled} {bound left k n now : Nat} {flag : Bool}
  {result : FetchResult α} {outcome other : Except RetryError α}

theorem startTime_succ (hn : 1 ≤ n) :
    startTime attempts (n + 1) = startTime attempts n + (attempts n).delay := by
  obtain ⟨m, rfl⟩ := Nat.exists_eq_add_of_le' hn
  have hrange : List.range' 1 (m + 1) = List.range' 1 m ++ [m + 1] := by
    rw [List.range'_1_concat, Nat.add_comm 1 m]
  simp [startTime, hrange]

theorem cancelledByAttempt_succ (hn : 1 ≤ n) :
    CancelledByAttempt attempts (n + 1) ↔ CancelledByAttempt attempts n ∨
      ((attempts n).cancels || (attempts n).cancelsAtEnd) = true := by
  constructor
  · rintro ⟨m, hm, hlt, hcancels⟩
    by_cases hmn : m = n
    · exact .inr (hmn ▸ hcancels)
    · exact .inl ⟨m, hm, by omega, hcancels⟩
  · rintro (⟨m, hm, hlt, hcancels⟩ | hcancels)
    · exact ⟨m, hm, by omega, hcancels⟩
    · exact ⟨n, hn, by omega, hcancels⟩

theorem not_transient_of_ok (v : α) : ¬Transient (.ok v : FetchResult α) := by
  rintro ⟨e, he, -⟩
  cases he

-- An attempt is repeated, or its result is final.
theorem conclude?_eq_none_iff : conclude? n left result = none ↔ Transient result ∧ 0 < left := by
  cases result with
  | ok v => simp [conclude?, not_transient_of_ok]
  | error e =>
      by_cases he : e.isTransient = true
      · by_cases hleft : left = 0
        · simp [conclude?, he, hleft]
        · simp [conclude?, he, hleft, Transient]
          omega
      · simp [conclude?, he, Transient]

theorem verdict_of_conclude? (h : conclude? n left result = some outcome) :
    Verdict (n + left) n result outcome := by
  cases result with
  | ok v =>
      cases h
      exact .value v
  | error e =>
      by_cases he : e.isTransient = true
      · by_cases hleft : left = 0
        · simp only [conclude?, he, hleft] at h
          cases h
          exact .exhausted he (by omega)
        · simp [conclude?, he, hleft] at h
      · simp only [conclude?, he] at h
        cases h
        exact .rejected (by simpa using he)

theorem Verdict.unique (h : Verdict bound n result outcome) (hother : Verdict bound n result other) :
    outcome = other := by
  cases h <;> cases hother <;> simp_all

-- A result that is worth another attempt is final only for the last one that is allowed.
theorem Verdict.eq_bound (h : Verdict bound n result outcome) (ht : Transient result) : n = bound := by
  obtain ⟨e, rfl, he⟩ := ht
  cases h with
  | rejected hnot => simp [he] at hnot
  | exhausted _ hn => exact hn

theorem Verdict.ne_cancelled (h : Verdict bound n result outcome) : outcome ≠ .error .cancelled := by
  cases h <;> simp

theorem arrives_first : Arrives attempts cancelAt cancelled 1 0 cancelled where
  now := rfl
  flag := by
    have hnone : ¬CancelledByAttempt attempts 1 := by
      rintro ⟨m, hm, hlt, -⟩
      omega
    simp [hnone]
  failed := by omega
  prompt := by omega

namespace Arrives

variable (h : Arrives attempts cancelAt cancelled n now flag)
include h

theorem cancelledBefore_iff :
    (flag || timeUp cancelAt now) = true ↔ CancelledBefore attempts cancelAt cancelled n := by
  rw [Bool.or_eq_true, h.flag, h.now, CancelledBefore, or_assoc]

theorem cancelledAmid_iff :
    ((attempts n).delay ≠ 0 && ((attempts n).cancels || timeUp cancelAt (now + (attempts n).delay))) = true ↔
      CancelledAmid attempts cancelAt n := by
  simp [CancelledAmid, h.now]

theorem next (hn : 1 ≤ n) (hbefore : ¬CancelledBefore attempts cancelAt cancelled n)
    (hamid : ¬CancelledAmid attempts cancelAt n) (ht : Transient (attempts n).result) :
    Arrives attempts cancelAt cancelled (n + 1) (now + (attempts n).delay)
      ((attempts n).cancels || (attempts n).cancelsAtEnd) where
  now := by rw [startTime_succ hn, h.now]
  flag := by
    have hnobody : cancelled ≠ true := fun hcancelled => hbefore (.inl hcancelled)
    have hnone : ¬CancelledByAttempt attempts n := fun hby => hbefore (.inr (.inl hby))
    rw [cancelledByAttempt_succ hn, or_iff_right hnone, or_iff_right hnobody]
  failed := by
    intro m hm hlt
    by_cases hmn : m = n
    · exact hmn ▸ ⟨ht, hamid⟩
    · exact h.failed m hm (by omega)
  prompt := by
    intro m hm hlt
    by_cases hmn : m = n
    · exact hmn ▸ hbefore
    · exact h.prompt m hm (by omega)

-- This attempt is the last one that starts.
theorem ends (hbound : n ≤ bound) (hbefore : ¬CancelledBefore attempts cancelAt cancelled n)
    (hending : Ending attempts cancelAt cancelled bound n outcome) :
    Ends attempts cancelAt cancelled bound n outcome where
  bounded := hbound
  retried := h.failed
  prompt := by
    intro m hm hle
    by_cases hmn : m = n
    · exact hmn ▸ hbefore
    · exact h.prompt m hm (by omega)
  ending := hending

-- This attempt does not start, so the one before it was the last.
theorem ends_before (hn : 1 ≤ n) (hbefore : CancelledBefore attempts cancelAt cancelled n) :
    Ends attempts cancelAt cancelled (n + left) (n - 1) (.error .cancelled) where
  bounded := by omega
  retried := fun m hm hlt => h.failed m hm (by omega)
  prompt := fun m hm hle => h.prompt m hm (by omega)
  ending := by
    have hnext : n - 1 + 1 = n := by omega
    exact .before (by omega) (hnext.symm ▸ hbefore) fun m hm hle => h.failed m hm (by omega)

-- The turn of an attempt ends the course, and nothing has been started in vain, or there is another one.
theorem turn_cases (hn : 1 ≤ n) (left : Nat) :
    (∃ k outcome, n ≤ k + 1 ∧
        turn cancelAt left n now flag (attempts n) = .ends ⟨List.range' n (k + 1 - n), outcome⟩ ∧
        Ends attempts cancelAt cancelled (n + left) k outcome) ∨
      0 < left ∧ ∃ later flag', turn cancelAt left n now flag (attempts n) = .again later flag' ∧
        Arrives attempts cancelAt cancelled (n + 1) later flag' := by
  unfold turn
  by_cases hbefore : CancelledBefore attempts cancelAt cancelled n
  · rw [if_pos (h.cancelledBefore_iff.mpr hbefore)]
    exact .inl ⟨n - 1, _, by omega, by simp [hn], h.ends_before hn hbefore⟩
  rw [if_neg (mt h.cancelledBefore_iff.mp hbefore)]
  by_cases hamid : CancelledAmid attempts cancelAt n
  · rw [if_pos (h.cancelledAmid_iff.mpr hamid)]
    exact .inl ⟨n, _, by omega, by simp, h.ends (by omega) hbefore (.amid hn hamid)⟩
  rw [if_neg (mt h.cancelledAmid_iff.mp hamid)]
  cases hresult : conclude? n left (attempts n).result with
  | none =>
      obtain ⟨ht, hleft⟩ := conclude?_eq_none_iff.mp hresult
      exact .inr ⟨hleft, _, _, rfl, h.next hn hbefore hamid ht⟩
  | some outcome =>
      have hverdict := verdict_of_conclude? hresult
      exact .inl ⟨n, outcome, by omega, by simp, h.ends (by omega) hbefore (.verdict hn hamid hverdict)⟩

end Arrives

-- The induction is on the number of attempts that are left. The attempts that are made go on from those
-- made before.
theorem Arrives.run_ends (h : Arrives attempts cancelAt cancelled n now flag) (hn : 1 ≤ n) (left : Nat) :
    ∃ k outcome, n ≤ k + 1 ∧ run attempts cancelAt left n now flag = ⟨List.range' n (k + 1 - n), outcome⟩ ∧
      Ends attempts cancelAt cancelled (n + left) k outcome := by
  induction left generalizing n now flag with
  | zero =>
      rcases h.turn_cases hn 0 with ⟨k, outcome, hk, hturn, hends⟩ | ⟨hleft, -⟩
      · exact ⟨k, outcome, hk, by rw [run, hturn], hends⟩
      · omega
  | succ left ih =>
      rcases h.turn_cases hn (left + 1) with ⟨k, outcome, hk, hturn, hends⟩ | ⟨-, later, flag', hturn, hnext⟩
      · exact ⟨k, outcome, hk, by rw [run, hturn], hends⟩
      · obtain ⟨k, outcome, hk, hrun, hends⟩ := ih hnext (by omega)
        have hrange : List.range' n (k + 1 - n) = n :: List.range' (n + 1) (k + 1 - (n + 1)) := by
          rw [← List.range'_succ]
          congr 1
          omega
        refine ⟨k, outcome, by omega, ?_, by rwa [Nat.add_right_comm, Nat.add_assoc] at hends⟩
        rw [run, hturn, hrange]
        show (run attempts cancelAt left (n + 1) later flag').after n = _
        rw [hrun]
        rfl

theorem turn_zero_ne_again (this : Attempt α) (later : Nat) (flag' : Bool) :
    turn cancelAt 0 n now flag this ≠ .again later flag' := by
  unfold turn
  split
  · simp
  · split
    · simp
    · cases hresult : conclude? n 0 this.result with
      | none => exact absurd (conclude?_eq_none_iff.mp hresult).2 (Nat.lt_irrefl 0)
      | some outcome => simp

-- Counted in 32 bits, the attempts are the same, as long as their bound can be counted.
theorem countUp_eq_run {count : UInt32} (hroom : count.toNat + 1 + left < UInt32.size) (now : Nat)
    (flag : Bool) : countUp (count.toNat + 1 + left) attempts cancelAt count now flag =
      some (run attempts cancelAt left (count.toNat + 1) now flag) := by
  induction left generalizing count now flag with
  | zero =>
      rw [countUp, dif_pos hroom]
      dsimp only
      rw [toNat_next hroom, Nat.add_zero, Nat.sub_self, run]
      cases hturn : turn cancelAt 0 (count.toNat + 1) now flag (attempts (count.toNat + 1)) with
      | ends course => rfl
      | again later flag' => exact absurd hturn (turn_zero_ne_again _ later flag')
  | succ left ih =>
      have hnext : (count + 1).toNat = count.toNat + 1 := toNat_next (by omega)
      have hbound : count.toNat + 1 + (left + 1) = (count + 1).toNat + 1 + left := by omega
      have hlater := ih (hbound ▸ hroom)
      rw [countUp, dif_pos (by omega), run]
      dsimp only
      rw [hnext, Nat.add_sub_cancel_left]
      cases hturn : turn cancelAt (left + 1) (count.toNat + 1) now flag (attempts (count.toNat + 1)) with
      | ends course => rfl
      | again later flag' =>
          dsimp only
          rw [hbound, hlater, hnext]
          rfl

theorem one_le_limit (retries : UInt32) : 1 ≤ limit retries := Nat.le_max_left 1 _

theorem limit_lt_size (retries : UInt32) : limit retries < UInt32.size := by
  have hlt := retries.toNat_lt
  have hsize : UInt32.size = 2 ^ 32 := rfl
  unfold limit
  omega

theorem perform_eq_run (retries : UInt32) : perform retries attempts cancelAt cancelled =
    some (run attempts cancelAt (limit retries - 1) 1 0 cancelled) := by
  have hlimit := one_le_limit retries
  have hsize := limit_lt_size retries
  have hbound : (0 : UInt32).toNat + 1 + (limit retries - 1) = limit retries := by
    rw [UInt32.toNat_zero]
    omega
  have hcounted : countUp ((0 : UInt32).toNat + 1 + (limit retries - 1)) attempts cancelAt 0 0 cancelled =
      some (run attempts cancelAt (limit retries - 1) 1 0 cancelled) :=
    countUp_eq_run (by rwa [hbound]) 0 cancelled
  rwa [hbound] at hcounted

namespace Ends

variable (h : Ends attempts cancelAt cancelled bound k outcome)
include h

theorem not_verdict_of_lt (hn : 1 ≤ n) (hlt : n < k) : ¬Verdict bound n (attempts n).result other := by
  intro hverdict
  have hlast := hverdict.eq_bound (h.retried n hn hlt).1
  have hk := h.bounded
  omega

-- An attempt that cancels everything is followed by no other one.
theorem eq_of_cancels (hn : 1 ≤ n) (hle : n ≤ k)
    (hcancels : ((attempts n).cancels || (attempts n).cancelsAtEnd) = true) : k = n := by
  by_contra hne
  have hbefore : CancelledByAttempt attempts (n + 1) := ⟨n, hn, Nat.lt_succ_self n, hcancels⟩
  exact h.prompt (n + 1) (by omega) (by omega) (.inr (.inl hbefore))

end Ends

-- How attempts end of which number `k` is the last one that starts.
structure Concludes (attempts : Nat → Attempt α) (cancelAt : Option Nat) (cancelled : Bool)
    (bound k : Nat) (outcome : Except RetryError α) : Prop where
  bounded : k ≤ bound
  -- every attempt but the last came to its end, with an error that is worth another attempt
  retried : ∀ n, 1 ≤ n → n < k → Transient (attempts n).result ∧ ¬CancelledAmid attempts cancelAt n
  -- nothing starts once all is cancelled
  prompt : ∀ n, 1 ≤ n → n ≤ k → ¬CancelledBefore attempts cancelAt cancelled n
  beforehand : cancelled = true → k = 0
  cancelled_iff : outcome = .error .cancelled ↔ ∃ n, 1 ≤ n ∧ n ≤ bound ∧
    (∀ m, 1 ≤ m → m < n → Transient (attempts m).result) ∧
      (CancelledBefore attempts cancelAt cancelled n ∨ CancelledAmid attempts cancelAt n)
  decided : outcome ≠ .error .cancelled → 1 ≤ k ∧ Verdict bound k (attempts k).result outcome
  -- an attempt that takes no time counts even if it cancels everything
  counts : ∀ n, 1 ≤ n → n ≤ k → (attempts n).delay = 0 →
    ∀ verdict, Verdict bound n (attempts n).result verdict → outcome = verdict
  -- but then there is no other attempt after it
  last : ∀ n, 1 ≤ n → n ≤ k → ((attempts n).cancels || (attempts n).cancelsAtEnd) = true →
    Transient (attempts n).result → n < bound → outcome = .error .cancelled ∧ k = n

theorem Ends.concludes (h : Ends attempts cancelAt cancelled bound k outcome) :
    Concludes attempts cancelAt cancelled bound k outcome where
  bounded := h.bounded
  retried := h.retried
  prompt := h.prompt
  beforehand := by
    intro hcancelled
    by_contra hk
    exact h.prompt 1 (Nat.le_refl 1) (by omega) (.inl hcancelled)
  cancelled_iff := by
    cases h.ending with
    | before hk hbefore hfailed =>
        refine iff_of_true rfl ⟨k + 1, by omega, hk, fun m hm hlt => ?_, .inl hbefore⟩
        exact (hfailed m hm (by omega)).1
    | amid hk hamid =>
        exact iff_of_true rfl ⟨k, hk, h.bounded, fun m hm hlt => (h.retried m hm hlt).1, .inr hamid⟩
    | verdict hk hamid hverdict =>
        refine iff_of_false hverdict.ne_cancelled ?_
        rintro ⟨n, hn, hbound, hfailed, hcancelled⟩
        -- the last attempt is not among those that are worth another one
        have hle : n ≤ k := by
          by_contra hlt
          have hlast := hverdict.eq_bound (hfailed k hk (by omega))
          omega
        rcases hcancelled with hbefore | hcancelled
        · exact h.prompt n hn hle hbefore
        · by_cases hnk : n = k
          · exact hamid (hnk ▸ hcancelled)
          · exact (h.retried n hn (by omega)).2 hcancelled
  decided := by
    intro houtcome
    cases h.ending with
    | before => exact absurd rfl houtcome
    | amid => exact absurd rfl houtcome
    | verdict hk _ hverdict => exact ⟨hk, hverdict⟩
  counts := by
    intro n hn hle hdelay verdict hverdict
    have hnk : n = k := by
      by_contra hne
      exact h.not_verdict_of_lt hn (by omega) hverdict
    subst hnk
    cases h.ending with
    | before hk _ hfailed =>
        have hlast := hverdict.eq_bound (hfailed n hn hle).1
        omega
    | amid _ hamid => exact absurd hdelay hamid.1
    | verdict _ _ hother => exact hother.unique hverdict
  last := by
    intro n hn hle hcancels ht hlt
    obtain rfl := h.eq_of_cancels hn hle hcancels
    refine ⟨?_, rfl⟩
    cases h.ending with
    | before => rfl
    | amid => rfl
    | verdict _ _ hverdict =>
        have hlast := hverdict.eq_bound ht
        omega

-- However the attempts go and whenever all is cancelled, the counter does not overflow, and the attempts
-- that start are those from number one to some number.
theorem attempts_conclude (retries : UInt32) (attempts : Nat → Attempt α) (cancelAt : Option Nat)
    (cancelled : Bool) : ∃ k outcome,
      perform retries attempts cancelAt cancelled = some ⟨List.range' 1 k, outcome⟩ ∧
      Concludes attempts cancelAt cancelled (max 1 retries.toNat) k outcome := by
  have hfirst : Arrives attempts cancelAt cancelled 1 0 cancelled := arrives_first
  obtain ⟨k, outcome, -, hrun, hends⟩ := hfirst.run_ends (Nat.le_refl 1) (limit retries - 1)
  rw [Nat.add_sub_cancel] at hrun
  rw [Nat.add_sub_cancel' (one_le_limit retries)] at hends
  exact ⟨k, outcome, by rw [perform_eq_run, hrun], hends.concludes⟩

end Retry

end CoilHub
