import CoilHub.Proofs.Entities.Roll
import Mathlib.Data.List.Induction
import Mathlib.Tactic.ByContra

namespace CoilHub

namespace Registry

-- What is asked of a registry.
inductive Call (η κ : Type)
  | register (handle : η) (interest : List Address) (reaction : κ)
  | deregister (handle : η)

variable {η κ : Type}

namespace Call

def handle : Call η κ → η
  | register handle _ _ => handle
  | deregister handle => handle

-- The listener that a call registers.
def listener? : Call η κ → Option (Listener η κ)
  | register handle interest reaction => some { handle, interest := .ofList interest, reaction }
  | deregister _ => none

theorem handle_of_listener? {call : Call η κ} {l : Listener η κ} (h : call.listener? = some l) :
    call.handle = l.handle := by
  cases call with
  | register => cases h; rfl
  | deregister => cases h

end Call

section Moments

-- A moment is the number of calls that were made before.
variable (calls : List (Call η κ))

def Brings (i : Nat) (l : Listener η κ) : Prop :=
  ∃ call, calls[i]? = some call ∧ call.listener? = some l

def GivesUp (i : Nat) (handle : η) : Prop := calls[i]? = some (.deregister handle)

-- A listener that was registered, and no later call was about its handle.
def Stands (l : Listener η κ) : Prop :=
  ∃ i, Brings calls i l ∧ ∀ j, i < j → ∀ call, calls[j]? = some call → call.handle ≠ l.handle

-- A handle that was registered and not given up since.
def Present (handle : η) : Prop :=
  ∃ i l, Brings calls i l ∧ l.handle = handle ∧ ∀ j, i < j → ¬GivesUp calls j handle

-- The moment at which a handle was registered for the first time since it was given up last.
structure Joins (handle : η) (i : Nat) : Prop where
  brought : ∃ l, Brings calls i l ∧ l.handle = handle
  kept : ∀ j, i < j → ¬GivesUp calls j handle
  first : ∀ j l, Brings calls j l → l.handle = handle → j < i →
    ∃ k, j < k ∧ k < i ∧ GivesUp calls k handle

def JoinsBefore (handle other : η) : Prop :=
  ∃ i j, Joins calls handle i ∧ Joins calls other j ∧ i < j

end Moments

section Moments

variable {calls : List (Call η κ)} {call c : Call η κ} {l : Listener η κ} {handle other : η} {i : Nat}

theorem le_of_getElem?_concat (h : (calls ++ [call])[i]? = some c) : i ≤ calls.length := by
  rcases getElem?_concat.mp h with h | ⟨hi, -⟩
  · exact Nat.le_of_lt (List.getElem?_eq_some_iff.mp h).1
  · exact Nat.le_of_eq hi

theorem brings_concat :
    Brings (calls ++ [call]) i l ↔ Brings calls i l ∨ i = calls.length ∧ call.listener? = some l := by
  constructor
  · rintro ⟨c, hc, hl⟩
    rcases getElem?_concat.mp hc with hc | ⟨hi, rfl⟩
    · exact .inl ⟨c, hc, hl⟩
    · exact .inr ⟨hi, hl⟩
  · rintro (⟨c, hc, hl⟩ | ⟨hi, hl⟩)
    · exact ⟨c, getElem?_concat.mpr (.inl hc), hl⟩
    · exact ⟨call, getElem?_concat.mpr (.inr ⟨hi, rfl⟩), hl⟩

theorem givesUp_concat : GivesUp (calls ++ [call]) i handle ↔
    GivesUp calls i handle ∨ i = calls.length ∧ call = .deregister handle :=
  getElem?_concat

theorem Brings.lt (h : Brings calls i l) : i < calls.length := by
  obtain ⟨call, hcall, -⟩ := h
  exact (List.getElem?_eq_some_iff.mp hcall).1

theorem GivesUp.lt (h : GivesUp calls i handle) : i < calls.length :=
  (List.getElem?_eq_some_iff.mp h).1

theorem stands_concat : Stands (calls ++ [call]) l ↔
    call.listener? = some l ∨ call.handle ≠ l.handle ∧ Stands calls l := by
  constructor
  · rintro ⟨i, hbrings, hquiet⟩
    rcases brings_concat.mp hbrings with hbrings | ⟨-, hl⟩
    · have hcall := hquiet calls.length hbrings.lt call (getElem?_concat.mpr (.inr ⟨rfl, rfl⟩))
      refine .inr ⟨hcall, i, hbrings, fun j hj c hc => ?_⟩
      exact hquiet j hj c (getElem?_concat.mpr (.inl hc))
    · exact .inl hl
  · rintro (hl | ⟨hne, i, hbrings, hquiet⟩)
    · refine ⟨calls.length, brings_concat.mpr (.inr ⟨rfl, hl⟩), fun j hj c hc => ?_⟩
      exact absurd (le_of_getElem?_concat hc) (Nat.not_le.mpr hj)
    · refine ⟨i, brings_concat.mpr (.inl hbrings), fun j hj c hc => ?_⟩
      rcases getElem?_concat.mp hc with hc | ⟨-, rfl⟩
      · exact hquiet j hj c hc
      · exact hne

theorem present_concat : Present (calls ++ [call]) handle ↔
    (∃ l, call.listener? = some l ∧ l.handle = handle) ∨
      call ≠ .deregister handle ∧ Present calls handle := by
  constructor
  · rintro ⟨i, l, hbrings, hl, hkept⟩
    rcases brings_concat.mp hbrings with hbrings | ⟨-, hcall⟩
    · refine .inr ⟨?_, i, l, hbrings, hl, fun j hj hup => hkept j hj (givesUp_concat.mpr (.inl hup))⟩
      exact fun hcall => hkept calls.length hbrings.lt (givesUp_concat.mpr (.inr ⟨rfl, hcall⟩))
    · exact .inl ⟨l, hcall, hl⟩
  · rintro (⟨l, hcall, hl⟩ | ⟨hcall, i, l, hbrings, hl, hkept⟩)
    · refine ⟨calls.length, l, brings_concat.mpr (.inr ⟨rfl, hcall⟩), hl, fun j hj hup => ?_⟩
      exact absurd (le_of_getElem?_concat hup) (Nat.not_le.mpr hj)
    · refine ⟨i, l, brings_concat.mpr (.inl hbrings), hl, fun j hj hup => ?_⟩
      rcases givesUp_concat.mp hup with hup | ⟨-, hdrop⟩
      · exact hkept j hj hup
      · exact hcall hdrop

namespace Joins

theorem lt (h : Joins calls handle i) : i < calls.length := by
  obtain ⟨l, hbrings, -⟩ := h.brought
  exact hbrings.lt

theorem not_lt {j : Nat} (hi : Joins calls handle i) (hj : Joins calls handle j) : ¬i < j := by
  intro hlt
  obtain ⟨l, hbrings, hl⟩ := hi.brought
  obtain ⟨k, hik, -, hup⟩ := hj.first i l hbrings hl hlt
  exact hi.kept k hik hup

theorem concat (h : Joins calls handle i) (hcall : call ≠ .deregister handle) :
    Joins (calls ++ [call]) handle i where
  brought := by
    obtain ⟨l, hbrings, hl⟩ := h.brought
    exact ⟨l, brings_concat.mpr (.inl hbrings), hl⟩
  kept := by
    intro j hj hup
    rcases givesUp_concat.mp hup with hup | ⟨-, hdrop⟩
    · exact h.kept j hj hup
    · exact hcall hdrop
  first := by
    intro j l hbrings hl hj
    rcases brings_concat.mp hbrings with hbrings | ⟨rfl, -⟩
    · obtain ⟨k, hjk, hki, hup⟩ := h.first j l hbrings hl hj
      exact ⟨k, hjk, hki, givesUp_concat.mpr (.inl hup)⟩
    · have hlt := h.lt
      omega

-- A handle that is not there joins when it is registered.
theorem new (habsent : ¬Present calls l.handle) (hcall : call.listener? = some l) :
    Joins (calls ++ [call]) l.handle calls.length where
  brought := ⟨l, brings_concat.mpr (.inr ⟨rfl, hcall⟩), rfl⟩
  kept := by
    intro j hj hup
    exact absurd (le_of_getElem?_concat hup) (Nat.not_le.mpr hj)
  first := by
    intro j m hbrings hm hj
    rcases brings_concat.mp hbrings with hbrings | ⟨rfl, -⟩
    · by_contra hnone
      refine habsent ⟨j, m, hbrings, hm, fun k hk hup => hnone ⟨k, hk, hup.lt, ?_⟩⟩
      exact givesUp_concat.mpr (.inl hup)
    · omega

end Joins

theorem Present.joins (h : Present calls handle) : ∃ i, Joins calls handle i := by
  induction calls using List.reverseRecOn with
  | nil =>
      obtain ⟨i, l, ⟨call, hcall, -⟩, -⟩ := h
      simp at hcall
  | append_singleton calls call ih =>
      by_cases hbefore : Present calls handle
      · have hcall : call ≠ .deregister handle := by
          rcases present_concat.mp h with ⟨l, hl, -⟩ | ⟨hcall, -⟩
          · rintro rfl
            cases hl
          · exact hcall
        obtain ⟨i, hi⟩ := ih hbefore
        exact ⟨i, hi.concat hcall⟩
      · rcases present_concat.mp h with ⟨l, hl, rfl⟩ | ⟨-, hpresent⟩
        · exact ⟨calls.length, .new hbefore hl⟩
        · exact absurd hpresent hbefore

-- Every handle that is present has joined at one moment.
theorem Present.joins_once (h : Present calls handle) : ∃! i, Joins calls handle i := by
  obtain ⟨i, hi⟩ := h.joins
  refine ⟨i, hi, fun j hj => ?_⟩
  have hij := hi.not_lt hj
  have hji := hj.not_lt hi
  omega

theorem JoinsBefore.concat (h : JoinsBefore calls handle other) (hhandle : call ≠ .deregister handle)
    (hother : call ≠ .deregister other) : JoinsBefore (calls ++ [call]) handle other := by
  obtain ⟨i, j, hi, hj, hlt⟩ := h
  exact ⟨i, j, hi.concat hhandle, hj.concat hother, hlt⟩

end Moments

variable [DecidableEq η] {r : Registry η κ} {l m : Listener η κ} {handle : η}

def obey (r : Registry η κ) : Call η κ → Registry η κ
  | .register handle interest reaction => r.register { handle, interest := .ofList interest, reaction }
  | .deregister handle => (r.dismiss handle).2

def afterCalls (calls : List (Call η κ)) : Registry η κ := calls.foldl obey {}

theorem afterCalls_concat (calls : List (Call η κ)) (call : Call η κ) :
    afterCalls (calls ++ [call]) = (afterCalls calls).obey call := by
  rw [afterCalls, List.foldl_append]
  rfl

theorem contains_iff_mem_handles : r.contains handle = true ↔ handle ∈ r.listeners.map (·.handle) := by
  rw [contains_iff, List.mem_map]

theorem mem_register (hr : r.Distinct) :
    m ∈ (r.register l).listeners ↔ l = m ∨ l.handle ≠ m.handle ∧ m ∈ r.listeners := by
  constructor
  · intro hm
    by_cases heq : l.handle = m.handle
    · exact .inl (List.inj_on_of_nodup_map (distinct_register hr l) (mem_place_self l r.listeners) hm heq)
    · exact (mem_place hm).imp Eq.symm fun hm => ⟨heq, hm⟩
  · rintro (rfl | ⟨hne, hm⟩)
    · exact mem_place_self l r.listeners
    · exact mem_place_of_ne hm hne.symm

theorem mem_deregister :
    m ∈ (r.deregister handle).listeners ↔ handle ≠ m.handle ∧ m ∈ r.listeners := by
  simp [deregister, and_comm, ne_comm]

theorem dismiss_unknown (h : ¬r.contains handle = true) : r.dismiss handle = (false, r) := by
  have hleft : r.deregister handle = r := by
    rw [contains_iff_mem_handles] at h
    exact congrArg Registry.mk (deregister_unknown h)
  simp [dismiss, hleft]

-- Exactly the listener of the handle goes, and the answer tells that it was there.
theorem dismiss_known {before after : List (Listener η κ)} (hr : r.Distinct)
    (h : r.listeners = before ++ l :: after) : r.dismiss l.handle = (true, ⟨before ++ after⟩) := by
  have hleft : r.deregister l.handle = ⟨before ++ after⟩ :=
    congrArg Registry.mk (deregister_known hr h)
  have hshorter : size ⟨before ++ after⟩ ≠ r.size := by
    simp only [size, h, List.length_append, List.length_cons]
    omega
  simp only [dismiss, hleft, bne_iff_ne.mpr hshorter]

theorem dismiss_iff (hr : r.Distinct) : (r.dismiss handle).1 = true ↔ r.contains handle = true := by
  by_cases h : r.contains handle = true
  · obtain ⟨l, hl, rfl⟩ := contains_iff.mp h
    obtain ⟨before, after, hsplit⟩ := List.append_of_mem hl
    simp [dismiss_known hr hsplit, h]
  · simp [dismiss_unknown h, h]

-- What the calls that were made tell about the listeners of a registry.
structure Recounts (calls : List (Call η κ)) (r : Registry η κ) : Prop where
  distinct : (r.listeners.map (·.handle)).Nodup
  present : ∀ handle, r.contains handle = true ↔ Present calls handle
  stands : ∀ l, l ∈ r.listeners ↔ Stands calls l
  ordered : (r.listeners.map (·.handle)).Pairwise (JoinsBefore calls)

namespace Recounts

variable {calls : List (Call η κ)} (h : Recounts calls r)
include h

theorem register {call : Call η κ} (hcall : call.listener? = some l) :
    Recounts (calls ++ [call]) (r.register l) where
  distinct := distinct_register h.distinct l
  present := by
    intro handle
    have hkeep : call ≠ .deregister handle := by
      rintro rfl
      cases hcall
    rw [contains_register, Bool.or_eq_true, decide_eq_true_iff, h.present, present_concat]
    simp [hcall, hkeep, @eq_comm _ handle l.handle]
  stands := by
    intro m
    rw [mem_register h.distinct, stands_concat, hcall, Call.handle_of_listener? hcall, h.stands,
      Option.some_inj]
  ordered := by
    have hkeep : ∀ handle, call ≠ .deregister handle := by
      rintro handle rfl
      cases hcall
    have hold : (r.listeners.map (·.handle)).Pairwise (JoinsBefore (calls ++ [call])) :=
      h.ordered.imp fun hbefore => hbefore.concat (hkeep _) (hkeep _)
    dsimp only [Registry.register]
    rw [handles_place]
    by_cases hknown : l.handle ∈ r.listeners.map (·.handle)
    · rw [if_pos hknown]
      exact hold
    · rw [if_neg hknown]
      have hjoins : Joins (calls ++ [call]) l.handle calls.length :=
        .new (fun hpresent => hknown (contains_iff_mem_handles.mp ((h.present _).mpr hpresent))) hcall
      refine List.pairwise_append.mpr ⟨hold, List.pairwise_singleton _ _, ?_⟩
      intro handle hhandle other hother
      obtain rfl := List.mem_singleton.mp hother
      obtain ⟨i, hi⟩ := ((h.present handle).mp (contains_iff_mem_handles.mpr hhandle)).joins
      exact ⟨i, calls.length, hi.concat (hkeep handle), hjoins, hi.lt⟩

theorem deregister (handle : η) : Recounts (calls ++ [.deregister handle]) (r.deregister handle) where
  distinct := distinct_deregister h.distinct handle
  present := by
    intro other
    rw [contains_deregister, Bool.and_eq_true, decide_eq_true_iff, h.present, present_concat]
    simp [Call.listener?, @eq_comm _ other handle]
  stands := by
    intro m
    rw [mem_deregister, stands_concat, h.stands]
    simp [Call.listener?, Call.handle]
  ordered := by
    have hold : ((r.deregister handle).listeners.map (·.handle)).Pairwise (JoinsBefore calls) :=
      h.ordered.sublist (List.filter_sublist.map _)
    refine hold.imp_of_mem fun {first second} hfirst hsecond hbefore => ?_
    have hkeep : ∀ other ∈ (r.deregister handle).listeners.map (·.handle),
        (Call.deregister handle : Call η κ) ≠ .deregister other := by
      intro other hother heq
      obtain ⟨m, hm, rfl⟩ := List.mem_map.mp hother
      exact (mem_deregister.mp hm).1 (Call.deregister.inj heq)
    exact hbefore.concat (hkeep first hfirst) (hkeep second hsecond)

theorem obey (call : Call η κ) : Recounts (calls ++ [call]) (r.obey call) := by
  cases call with
  | register handle interest reaction => exact h.register rfl
  | deregister handle => exact h.deregister handle

end Recounts

theorem recounts_afterCalls (calls : List (Call η κ)) : Recounts calls (afterCalls calls) := by
  induction calls using List.reverseRecOn with
  | nil =>
      refine ⟨.nil, fun handle => ?_, fun l => ?_, .nil⟩
      · simp [afterCalls, contains, Present, Brings]
      · simp [afterCalls, Stands, Brings]
  | append_singleton calls call ih =>
      rw [afterCalls_concat]
      exact ih.obey call

-- The calls that were made decide who is on the registry, as what and in which order. They decide what
-- giving up a handle answers and does, and whose reactions are called and in which order.
theorem history_decides (calls : List (Call η κ)) :
    let r := afterCalls calls
    Recounts calls r ∧
      (∀ handle, Present calls handle → ∃! i, Joins calls handle i) ∧
      (∀ handle, (r.dismiss handle).1 = true ↔ Present calls handle) ∧
      (∀ handle, ¬Present calls handle → (r.dismiss handle).2 = r) ∧
      (∀ before l after, r.listeners = before ++ l :: after →
        (r.dismiss l.handle).2.listeners = before ++ after) ∧
      (∀ a, ∃ ls : List (Listener η κ), ls.Sublist r.listeners ∧
        (∀ l, l ∈ ls ↔ Stands calls l ∧ a ∈ l.interest) ∧ r.watchers a = ls.map (·.reaction)) ∧
      r.reactions = r.listeners.map (·.reaction) := by
  intro r
  have h : Recounts calls r := recounts_afterCalls calls
  refine ⟨h, fun handle => Present.joins_once, fun handle => ?_, fun handle habsent => ?_,
    fun before l after hsplit => ?_, fun a => ?_, rfl⟩
  · rw [dismiss_iff h.distinct, h.present]
  · rw [← h.present] at habsent
    rw [dismiss_unknown habsent]
  · rw [dismiss_known h.distinct hsplit]
  · refine ⟨r.watching a, List.filter_sublist, fun l => ?_, rfl⟩
    rw [watching, List.mem_filter, AddressSet.contains_iff, h.stands]

-- A listener that changes keeps its place, and one that comes back is the last.
example :
    let joined := [.register 1 [5] "a", .register 2 [5] "b"]
    (afterCalls (joined ++ [.register 1 [5] "c"])).watchers 5 = ["c", "b"] ∧
      (afterCalls (joined ++ [.deregister 1, .register 1 [5] "c"])).watchers 5 = ["b", "c"] := by
  decide

end Registry

end CoilHub
