import CoilHub.Proofs.Cache.Revisions
import Mathlib.Data.List.Induction

namespace CoilHub

-- A value that is offered to a cache.
structure Offer where
  revision : UInt64
  address : Address
  value : CoilValue
deriving DecidableEq

namespace Offer

def entry (o : Offer) : CacheEntry := { revision := o.revision, address := o.address, value := o.value }

-- The first one of the highest revision among the offers for an address.
def Newest (offers : List Offer) (a : Address) (o : Offer) : Prop :=
  ∃ before after, offers = before ++ o :: after ∧ o.address = a ∧
    (∀ p ∈ before, p.address = a → p.revision < o.revision) ∧
    ∀ p ∈ after, p.address = a → p.revision ≤ o.revision

-- Whether all offers for the same address have a lower revision.
def Fresh (offers : List Offer) (o : Offer) : Prop :=
  ∀ p ∈ offers, p.address = o.address → p.revision < o.revision

-- No address has a revision twice.
def Apart (offers : List Offer) : Prop :=
  offers.Pairwise fun o p => o.address = p.address → o.revision ≠ p.revision

variable {offers : List Offer} {a : Address} {o p : Offer}

namespace Newest

theorem mem (h : Newest offers a o) : o ∈ offers := by
  obtain ⟨before, after, rfl, -⟩ := h
  simp

theorem address (h : Newest offers a o) : o.address = a := by
  obtain ⟨-, -, -, ha, -⟩ := h
  exact ha

theorem le (h : Newest offers a o) (hp : p ∈ offers) (ha : p.address = a) : p.revision ≤ o.revision := by
  obtain ⟨before, after, rfl, -, hbefore, hafter⟩ := h
  rcases List.mem_append.mp hp with hp | hp
  · exact UInt64.le_of_lt (hbefore p hp ha)
  · rcases List.mem_cons.mp hp with rfl | hp
    · exact UInt64.le_refl _
    · exact hafter p hp ha

end Newest

-- The last offer is the newest one if it is fresh, and otherwise it changes nothing.
theorem newest_concat : Newest (offers ++ [p]) a o ↔
    (o = p ∧ p.address = a ∧ Fresh offers p) ∨
      Newest offers a o ∧ (p.address = a → p.revision ≤ o.revision) := by
  constructor
  · rintro ⟨before, after, heq, ha, hbefore, hafter⟩
    rcases List.eq_nil_or_concat after with rfl | ⟨after, last, rfl⟩
    · obtain ⟨rfl, heq⟩ := List.append_inj' heq rfl
      obtain rfl : p = o := by simpa using heq
      exact .inl ⟨rfl, ha, fun q hq hqa => hbefore q hq (hqa.trans ha)⟩
    · have heq : offers ++ [p] = (before ++ o :: after) ++ [last] := by simpa using heq
      obtain ⟨rfl, heq⟩ := List.append_inj' heq rfl
      obtain rfl : p = last := by simpa using heq
      exact .inr ⟨⟨before, after, rfl, ha, hbefore, fun q hq => hafter q (by simp [hq])⟩,
        hafter p (by simp)⟩
  · rintro (⟨rfl, ha, hfresh⟩ | ⟨⟨before, after, rfl, ha, hbefore, hafter⟩, hp⟩)
    · exact ⟨offers, [], rfl, ha, fun q hq hqa => hfresh q hq (hqa.trans ha.symm), by simp⟩
    · refine ⟨before, after ++ [p], by simp, ha, hbefore, fun q hq hqa => ?_⟩
      rcases List.mem_append.mp hq with hq | hq
      · exact hafter q hq hqa
      · obtain rfl := List.mem_singleton.mp hq
        exact hp hqa

theorem exists_of_not_fresh (h : ¬Fresh offers o) :
    ∃ p ∈ offers, p.address = o.address ∧ o.revision ≤ p.revision := by
  simpa [Fresh] using h

theorem exists_newest (hp : p ∈ offers) (ha : p.address = a) : ∃ o, Newest offers a o := by
  induction offers using List.reverseRecOn generalizing p with
  | nil => cases hp
  | append_singleton offers last ih =>
      by_cases hlast : last.address = a ∧ Fresh offers last
      · exact ⟨last, newest_concat.mpr (.inl ⟨rfl, hlast⟩)⟩
      -- an offer that is not fresh comes after one that is as new
      have hstale : last.address = a → ∃ q ∈ offers, q.address = a ∧ last.revision ≤ q.revision := by
        rintro rfl
        exact exists_of_not_fresh fun hfresh => hlast ⟨rfl, hfresh⟩
      have hearlier : ∃ q ∈ offers, q.address = a := by
        rcases List.mem_append.mp hp with hp | hp
        · exact ⟨p, hp, ha⟩
        · obtain rfl := List.mem_singleton.mp hp
          obtain ⟨q, hq, hqa, -⟩ := hstale ha
          exact ⟨q, hq, hqa⟩
      obtain ⟨q, hq, hqa⟩ := hearlier
      obtain ⟨o, ho⟩ := ih hq hqa
      refine ⟨o, newest_concat.mpr (.inr ⟨ho, fun hla => ?_⟩)⟩
      obtain ⟨r, hr, hra, hle⟩ := hstale hla
      exact UInt64.le_trans hle (ho.le hr hra)

-- If no address has a revision twice then the newest offer is known by its revision alone.
theorem newest_iff (h : Apart offers) :
    Newest offers a o ↔
      o ∈ offers ∧ o.address = a ∧ ∀ p ∈ offers, p.address = a → p.revision ≤ o.revision := by
  constructor
  · intro ho
    exact ⟨ho.mem, ho.address, fun p hp ha => ho.le hp ha⟩
  · rintro ⟨ho, rfl, hle⟩
    obtain ⟨before, after, rfl⟩ := List.append_of_mem ho
    refine ⟨before, after, rfl, rfl, fun p hp ha => ?_, fun p hp ha => hle p (by simp [hp]) ha⟩
    have hne := (List.pairwise_append.mp h).2.2 p hp o (by simp) ha
    exact UInt64.lt_of_le_of_ne (hle p (by simp [hp]) ha) hne

theorem Apart.perm {others : List Offer} (h : Apart offers) (hperm : offers.Perm others) : Apart others :=
  hperm.pairwise h fun hne heq hrev => hne heq.symm hrev.symm

-- The newest offer does not depend on the order then.
theorem Newest.perm {others : List Offer} (h : Newest offers a o) (hapart : Apart offers)
    (hperm : offers.Perm others) : Newest others a o := by
  rw [newest_iff (hapart.perm hperm)]
  rw [newest_iff hapart] at h
  obtain ⟨ho, ha, hle⟩ := h
  exact ⟨hperm.mem_iff.mp ho, ha, fun p hp => hle p (hperm.mem_iff.mpr hp)⟩

end Offer

namespace Cache

open Offer

-- The cache after a value was offered to it.
def offer (c : Cache) (o : Offer) : Cache := (c.store o.revision o.address o.value).2

def offerAll (c : Cache) (offers : List Offer) : Cache := offers.foldl offer c

-- Each address has the entry of its newest offer, and nothing else is there.
def Keeps (c : Cache) (offers : List Offer) : Prop :=
  ∀ a e, c.entries.get? a = some e ↔ ∃ o, Newest offers a o ∧ e = o.entry

variable {c : Cache} {offers : List Offer} {a : Address} {o : Offer}

theorem offerAll_concat (c : Cache) (offers : List Offer) (o : Offer) :
    c.offerAll (offers ++ [o]) = (c.offerAll offers).offer o := by
  rw [offerAll, List.foldl_append]
  rfl

namespace Keeps

theorem get?_eq_none (h : c.Keeps offers) :
    c.entries.get? a = none ↔ ∀ o ∈ offers, o.address ≠ a := by
  constructor
  · intro hnone o ho ha
    obtain ⟨p, hp⟩ := exists_newest ho ha
    have hsome := (h a p.entry).mpr ⟨p, hp, rfl⟩
    rw [hnone] at hsome
    cases hsome
  · intro hnone
    cases he : c.entries.get? a with
    | none => rfl
    | some e =>
        obtain ⟨p, hp, -⟩ := (h a e).mp he
        exact absurd hp.address (hnone p hp.mem)

theorem store_fresh (h : c.Keeps offers) (hfresh : Fresh offers o) :
    c.store o.revision o.address o.value = (some { address := o.address, value := o.value },
      { c with entries := c.entries.insert o.address o.entry }) := by
  have hstore := store?_of_newer o.value fun e he => by
    obtain ⟨p, hp, rfl⟩ := (h o.address e).mp he
    exact hfresh p hp.mem hp.address
  rw [store, hstore]
  rfl

theorem store_stale (h : c.Keeps offers) (hstale : ¬Fresh offers o) :
    c.store o.revision o.address o.value = (none, c) := by
  obtain ⟨p, hp, ha, hle⟩ := exists_of_not_fresh hstale
  obtain ⟨newest, hnewest⟩ := exists_newest hp ha
  have he := (h o.address newest.entry).mpr ⟨newest, hnewest, rfl⟩
  have hrefused : o.revision ≤ newest.entry.revision := UInt64.le_trans hle (hnewest.le hp ha)
  simp [store, store?, he, hrefused]

theorem offer (h : c.Keeps offers) (o : Offer) : (c.offer o).Keeps (offers ++ [o]) := by
  intro a e
  by_cases hfresh : Fresh offers o
  · rw [Cache.offer, h.store_fresh hfresh, AddressMap.get?_insert]
    by_cases ha : a = o.address
    · subst ha
      rw [if_pos rfl]
      constructor
      · rintro ⟨⟩
        exact ⟨o, newest_concat.mpr (.inl ⟨rfl, rfl, hfresh⟩), rfl⟩
      · rintro ⟨p, hp, rfl⟩
        rcases newest_concat.mp hp with ⟨rfl, -⟩ | ⟨hp, hle⟩
        · rfl
        · exact absurd (hle rfl) (UInt64.not_le.mpr (hfresh p hp.mem hp.address))
    · rw [if_neg ha, h a e]
      have hsame : ∀ p, Newest (offers ++ [o]) a p ↔ Newest offers a p := by
        simp [newest_concat, Ne.symm ha]
      simp only [hsame]
  · rw [Cache.offer, h.store_stale hfresh, h a e]
    -- a stale offer is not the newest one of its address, nor is it newer than that one
    have hsame : ∀ p, Newest (offers ++ [o]) a p ↔ Newest offers a p := by
      intro p
      rw [newest_concat]
      refine ⟨?_, fun hp => .inr ⟨hp, ?_⟩⟩
      · rintro (⟨-, -, hfresh'⟩ | ⟨hp, -⟩)
        · exact absurd hfresh' hfresh
        · exact hp
      · rintro rfl
        obtain ⟨q, hq, hqa, hle⟩ := exists_of_not_fresh hfresh
        exact UInt64.le_trans hle (hp.le hq hqa)
    simp only [hsame]

end Keeps

theorem keeps_offerAll (issued : UInt64) (offers : List Offer) :
    (offerAll { issued } offers).Keeps offers := by
  induction offers using List.reverseRecOn with
  | nil =>
      intro a e
      simp [offerAll, Newest]
  | append_singleton offers last ih =>
      rw [offerAll_concat]
      exact ih.offer last

theorem issued_offerAll (issued : UInt64) (offers : List Offer) :
    (offerAll { issued } offers).issued = issued := by
  induction offers using List.reverseRecOn with
  | nil => rfl
  | append_singleton offers last ih =>
      rw [offerAll_concat, Cache.offer]
      by_cases hfresh : Fresh offers last
      · rw [(keeps_offerAll issued offers).store_fresh hfresh]
        exact ih
      · rw [(keeps_offerAll issued offers).store_stale hfresh]
        exact ih

theorem offerAll_perm {others : List Offer} (issued : UInt64) (hapart : Apart offers)
    (hperm : offers.Perm others) : offerAll { issued } others = offerAll { issued } offers := by
  have hentries : (offerAll { issued } others).entries = (offerAll { issued } offers).entries := by
    refine AddressMap.ext_get? fun a => Option.ext fun e => ?_
    rw [keeps_offerAll issued others a e, keeps_offerAll issued offers a e]
    constructor
    · rintro ⟨o, ho, he⟩
      exact ⟨o, ho.perm (hapart.perm hperm) hperm.symm, he⟩
    · rintro ⟨o, ho, he⟩
      exact ⟨o, ho.perm hapart hperm, he⟩
  have hissued := (issued_offerAll issued others).trans (issued_offerAll issued offers).symm
  exact congrArg₂ Cache.mk hentries hissued

-- Values may come in any order, and under any revisions. Each address keeps the first value of its highest
-- revision. A value is stored just if its revision is higher than all before it at its address.
theorem newest_kept (issued : UInt64) (offers : List Offer) :
    let c := offerAll { issued } offers
    (∀ a e, c.entries.get? a = some e ↔ ∃ o, Newest offers a o ∧ e = o.entry) ∧
      (∀ a, c.entries.get? a = none ↔ ∀ o ∈ offers, o.address ≠ a) ∧
      (∀ o, Fresh offers o → c.store o.revision o.address o.value =
        (some { address := o.address, value := o.value },
          { c with entries := c.entries.insert o.address o.entry })) ∧
      (∀ o, ¬Fresh offers o → c.store o.revision o.address o.value = (none, c)) ∧
      (Apart offers → ∀ others, offers.Perm others → offerAll { issued } others = c) := by
  have hkeeps := keeps_offerAll issued offers
  exact ⟨hkeeps, fun a => hkeeps.get?_eq_none, fun o => hkeeps.store_fresh,
    fun o => hkeeps.store_stale, fun hapart others => offerAll_perm issued hapart⟩

-- The write under revision 2 stays, whether the read under revision 1 was answered before it or after it.
theorem newest_kept_shuffled :
    let read : Offer := { revision := 1, address := 47011, value := .integer 0 }
    let written : Offer := { revision := 2, address := 47011, value := .integer 3 }
    let other : Offer := { revision := 1, address := 40004, value := .integer 7 }
    Apart [read, other, written] ∧
      (offerAll {} [read, other, written]).entries.get? 47011 = some written.entry ∧
      offerAll {} [written, read, other] = offerAll {} [read, other, written] := by
  intro read written other
  have hapart : Apart [read, other, written] := by simp [Apart, read, other, written]
  obtain ⟨-, -, -, -, hperm⟩ := newest_kept 0 [read, other, written]
  exact ⟨hapart, rfl, hperm hapart _ (by decide)⟩

end Cache

end CoilHub
