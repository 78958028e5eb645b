import CoilHub.CommandLine.Probe
import CoilHub.Proofs.Configuration.Layers
import Mathlib.Data.List.Nodup

namespace CoilHub

namespace Model

variable {m : Model} {key : String} {coil other : Coil}

-- A key is the machine name of a coil, or the number of its address, perhaps with a plus sign or with
-- zeros in front.
def Names (m : Model) (key : String) (coil : Coil) : Prop :=
  coil ∈ m.coils ∧ (key = coil.name ∨ ReadsNatural 65535 key.toList coil.address.toNat)

theorem nodup_addresses (m : Model) : (m.coils.map Coil.address).Nodup := by
  refine m.sorted_coils.imp fun {a b} hlt => ?_
  rintro rfl
  exact Address.lt_irrefl a hlt

-- All coils that any model has.
def catalogue : List Coil := Coil.lowerCoils ++ Coil.compressorCoils ++ Coil.upperCoils

theorem coils_sublist (m : Model) : m.coils.Sublist catalogue := by
  have hcompressor : (if m.hasCompressor then Coil.compressorCoils else []).Sublist Coil.compressorCoils := by
    split
    · exact .refl _
    · exact List.nil_sublist _
  exact (hcompressor.append_left _).append_right _

theorem nodup_names (m : Model) : (m.coils.map Coil.name).Nodup := by
  have hall : (catalogue.map Coil.name).Nodup := by decide +kernel
  exact hall.sublist (m.coils_sublist.map _)

theorem not_reads_name (m : Model) : ∀ coil ∈ m.coils, readNat? 65535 coil.name.toList = none := by
  have hall : ∀ coil ∈ catalogue, readNat? 65535 coil.name.toList = none := by decide +kernel
  exact fun coil hcoil => hall coil (m.coils_sublist.subset hcoil)

theorem Names.unique (h : m.Names key coil) (h' : m.Names key other) : coil = other := by
  have hmixed : ∀ {coil other : Coil}, coil ∈ m.coils → key = coil.name →
      ¬ReadsNatural 65535 key.toList other.address.toNat := by
    intro coil other hcoil hname hreads
    have hread := readNat?_eq_some_iff.mpr hreads
    rw [hname, not_reads_name m coil hcoil] at hread
    cases hread
  obtain ⟨hcoil, hname | hreads⟩ := h <;> obtain ⟨hother, hname' | hreads'⟩ := h'
  · exact List.inj_on_of_nodup_map m.nodup_names hcoil hother (hname.symm.trans hname')
  · exact absurd hreads' (hmixed hcoil hname)
  · exact absurd hreads (hmixed hother hname')
  · have hsame := (readNat?_eq_some_iff.mpr hreads).symm.trans (readNat?_eq_some_iff.mpr hreads')
    exact List.inj_on_of_nodup_map m.nodup_addresses hcoil hother
      (UInt16.toNat_inj.mp (Option.some.inj hsame))

theorem findCoil?_eq_some_iff : m.findCoil? key = some coil ↔ m.Names key coil := by
  have hmeets : ∀ coil : Coil, (some coil.address.toNat = readNat? 65535 key.toList || coil.name = key) = true
      ↔ (key = coil.name ∨ ReadsNatural 65535 key.toList coil.address.toNat) := by
    intro coil
    have hreads : some coil.address.toNat = readNat? 65535 key.toList ↔
        ReadsNatural 65535 key.toList coil.address.toNat := eq_comm.trans readNat?_eq_some_iff
    rw [Bool.or_eq_true, decide_eq_true_iff, decide_eq_true_iff, hreads, or_comm, eq_comm (a := key)]
  have hfound : ∀ {coil : Coil}, m.findCoil? key = some coil → m.Names key coil := by
    intro coil hfind
    unfold findCoil? at hfind
    have hmet := List.find?_some hfind
    exact ⟨List.mem_of_find?_eq_some hfind, (hmeets coil).mp hmet⟩
  refine ⟨hfound, fun h => ?_⟩
  have hsome : (m.findCoil? key).isSome := List.find?_isSome.mpr ⟨coil, h.1, (hmeets coil).mpr h.2⟩
  obtain ⟨other, hother⟩ := Option.isSome_iff_exists.mp hsome
  rw [hother, (hfound hother).unique h]

theorem findCoil?_eq_none_iff : m.findCoil? key = none ↔ ∀ coil, ¬m.Names key coil := by
  rw [Option.eq_none_iff_forall_ne_some]
  exact forall_congr' fun coil => not_congr findCoil?_eq_some_iff

-- Whatever is named is in the table.
theorem mem_coils_of_names {keys : List String} {coils : List Coil} (h : List.Forall₂ m.Names keys coils) :
    ∀ coil ∈ coils, coil ∈ m.coils := by
  induction h with
  | nil => exact nofun
  | cons hkey _ ih => exact List.forall_mem_cons.mpr ⟨hkey.1, ih⟩

end Model

namespace Probe

variable {m : Model} {keys : List String}

theorem findCoils_cons (m : Model) (key : String) (keys : List String) :
    findCoils m (key :: keys) =
      match m.findCoil? key with
      | none => .error key
      | some coil => (findCoils m keys).map (coil :: ·) := by
  rfl

theorem findCoils_eq_ok {coils : List Coil} (h : List.Forall₂ m.Names keys coils) :
    findCoils m keys = .ok coils := by
  induction h with
  | nil => rfl
  | cons hkey _ ih =>
      rw [findCoils_cons, Model.findCoil?_eq_some_iff.mpr hkey]
      dsimp only
      rw [ih]
      rfl

theorem findCoils_eq_error {before after : List String} {key : String}
    (hbefore : ∀ known ∈ before, ∃ coil, m.Names known coil) (hkey : ∀ coil, ¬m.Names key coil) :
    findCoils m (before ++ key :: after) = .error key := by
  induction before with
  | nil => rw [List.nil_append, findCoils_cons, Model.findCoil?_eq_none_iff.mpr hkey]
  | cons known before ih =>
      obtain ⟨coil, hcoil⟩ := hbefore known List.mem_cons_self
      rw [List.cons_append, findCoils_cons, Model.findCoil?_eq_some_iff.mpr hcoil]
      dsimp only
      rw [ih fun known hmem => hbefore known (List.mem_cons_of_mem _ hmem)]
      rfl

end Probe

namespace Pump

variable {p : Pump} {coils : List Coil} {coil : Coil}

theorem get?_withCoil_of_ne {a : Address} (h : a ≠ coil.address) (value : CoilValue) :
    (p.withCoil coil value).coils.get? a = p.coils.get? a := by
  rw [withCoil, AddressMap.get?_insert, if_neg h]

-- Each coil that is put in keeps its place, as long as no other one has its address.
theorem get?_foldl_withCoil (hnodup : (coils.map Coil.address).Nodup) (hcoil : coil ∈ coils) :
    (coils.foldl (fun p coil => p.withCoil coil (initialValue coil.address)) p).coils.get? coil.address =
      some (coil, initialValue coil.address) := by
  have hkept : ∀ (coils : List Coil) (p : Pump), coil.address ∉ coils.map Coil.address →
      (coils.foldl (fun p coil => p.withCoil coil (initialValue coil.address)) p).coils.get? coil.address =
        p.coils.get? coil.address := by
    intro coils
    induction coils with
    | nil => exact fun _ _ => rfl
    | cons first rest ih =>
        intro p hmem
        rw [List.map_cons, List.mem_cons, not_or] at hmem
        rw [List.foldl_cons, ih _ hmem.2, get?_withCoil_of_ne hmem.1]
  induction coils generalizing p with
  | nil => cases hcoil
  | cons first rest ih =>
      rw [List.map_cons, List.nodup_cons] at hnodup
      rw [List.foldl_cons]
      rcases List.mem_cons.mp hcoil with rfl | hrest
      · rw [hkept rest _ hnodup.1, withCoil, AddressMap.get?_insert, if_pos rfl]
      · exact ih hnodup.2 hrest

theorem get?_ofModel {m : Model} (h : coil ∈ m.coils) :
    (ofModel m).coils.get? coil.address = some (coil, initialValue coil.address) :=
  get?_foldl_withCoil m.nodup_addresses h

-- A fresh pump waits for nothing and has no failures in store.
structure Fresh (p : Pump) : Prop where
  readDelay : p.readDelay = 0
  readFaults : p.readFaults = .empty
  writeFaults : p.writeFaults = .empty

theorem fresh_ofModel (m : Model) : (ofModel m).Fresh := by
  unfold ofModel
  apply List.foldlRecOn (motive := Fresh)
  · exact ⟨rfl, rfl, rfl⟩
  · exact fun p hp coil _ => ⟨hp.readDelay, hp.readFaults, hp.writeFaults⟩

end Pump

end CoilHub
