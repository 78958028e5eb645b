import CoilHub.Proofs.CommandLine.Invocation

namespace CoilHub

namespace Probe

variable {opts keys : List String} {env loaded : Environment} {file : Option ByteArray} {model : Model}
  {retries : UInt32} {s : System} {coils : List Coil}

theorem Ready.answers (h : Ready model s) : s.hub.gateway.Answers (Pump.ofModel model).value? := by
  have hfresh := Pump.fresh_ofModel model
  refine ⟨_, congrArg Gateway.source h.gateway, hfresh.readDelay, fun a => ?_, fun a => rfl⟩
  show Pump.takeFault (Pump.ofModel model).readFaults a = none
  rw [hfresh.readFaults]
  rfl

theorem value?_ofModel {coil : Coil} (h : coil ∈ model.coils) :
    (Pump.ofModel model).value? coil.address = some (Pump.initialValue coil.address) := by
  rw [Pump.value?, Pump.get?_ofModel h]
  rfl

-- After the refresh each of the coils is cached with the value that the pump began with.
theorem refresh_coils (h : Ready model s) (hcoils : ∀ coil ∈ coils, coil ∈ model.coils) :
    ∃ values t, (s.mapHub (·.listen "probe" (coils.map Coil.address) [])).run .refresh =
        (some (.ok (.refreshed values)), t) ∧
      ∀ coil ∈ coils, t.hub.cache.get? coil.address = some (Pump.initialValue coil.address) := by
  let listening := s.mapHub (·.listen "probe" (coils.map Coil.address) [])
  have hrested : listening.Rested :=
    ⟨h.rested.finished, h.rested.cycleLock, h.rested.transport, h.rested.cancelled⟩
  have hlisteners : ∃ l, listening.hub.registry.listeners = [l] ∧ Mute l ∧
      l.interest = .ofList (coils.map Coil.address) := by
    have hregistry : listening.hub.registry = s.hub.registry.register _ := rfl
    rw [hregistry, h.registry]
    exact ⟨_, rfl, ⟨_, rfl⟩, rfl⟩
  obtain ⟨l, hlisteners, hmute, hinterest⟩ := hlisteners
  have hempty : listening.hub.cache.entries = .empty := congrArg Cache.entries h.cache
  obtain ⟨values, t, hrun, hcached⟩ := System.run_refresh hrested h.answers
    (fun l' hl' => by
      rw [hlisteners, List.mem_singleton] at hl'
      exact hl' ▸ hmute) hempty
    (fun l' hl' a ha => by
      rw [hlisteners, List.mem_singleton] at hl'
      rw [hl', hinterest, AddressSet.mem_ofList] at ha
      obtain ⟨coil, hcoil, rfl⟩ := List.mem_map.mp ha
      rw [value?_ofModel (hcoils coil hcoil)]
      rfl)
  refine ⟨values, t, hrun, fun coil hcoil => ?_⟩
  have hmem : coil.address ∈ l.interest := by
    rw [hinterest, AddressSet.mem_ofList]
    exact List.mem_map_of_mem hcoil
  rw [hcached l (hlisteners ▸ List.mem_singleton_self l) _ hmem, value?_ofModel (hcoils coil hcoil)]

theorem request_read (hne : keys ≠ []) (hkeys : ∀ key ∈ keys, Arguments.isOption key = false) :
    request ("read" :: keys) = .ok (.read keys) := by
  obtain ⟨key, rest, rfl⟩ := List.exists_cons_of_ne_nil hne
  simp [request, bind, Except.bind, pure, Except.pure, Arguments.operands_eq_ok hkeys]

-- No coil begins with a value that is not written.
theorem initialValue_written : ∀ coil ∈ Model.catalogue,
    (Pump.initialValue coil.address).document.compact ≠ "null" := by
  decide +kernel

-- The first of some keys that does not have a property.
theorem exists_first {p : String → Prop} (h : ¬∀ key ∈ keys, p key) :
    ∃ before key after, keys = before ++ key :: after ∧ (∀ known ∈ before, p known) ∧ ¬p key := by
  induction keys with
  | nil => exact absurd (fun _ hmem => nomatch hmem) h
  | cons first rest ih =>
      by_cases hfirst : p first
      · have hrest : ¬∀ key ∈ rest, p key := fun hall => h (List.forall_mem_cons.mpr ⟨hfirst, hall⟩)
        obtain ⟨before, key, after, rfl, hbefore, hkey⟩ := ih hrest
        exact ⟨first :: before, key, after, rfl, List.forall_mem_cons.mpr ⟨hfirst, hbefore⟩, hkey⟩
      · exact ⟨[], first, rest, rfl, nofun, hfirst⟩

theorem exists_forall₂ {α β : Type} {r : α → β → Prop} {l : List α} (h : ∀ a ∈ l, ∃ b, r a b) :
    ∃ l', List.Forall₂ r l l' := by
  induction l with
  | nil => exact ⟨[], .nil⟩
  | cons a l ih =>
      obtain ⟨⟨b, hb⟩, hrest⟩ := List.forall_mem_cons.mp h
      obtain ⟨l', hl'⟩ := ih hrest
      exact ⟨b :: l', .cons hb hl'⟩

theorem read_known (h : Ready model s) (hcoils : List.Forall₂ model.Names keys coils) :
    read s model keys = print (.array (coils.map fun coil =>
      row coil (some (Pump.initialValue coil.address)))) := by
  obtain ⟨values, t, hrun, hcached⟩ := refresh_coils h (Model.mem_coils_of_names hcoils)
  rw [read, findCoils_eq_ok hcoils]
  dsimp only
  rw [hrun]
  dsimp only
  rw [List.map_congr_left fun coil hcoil => by rw [hcached coil hcoil]]

-- Whatever the keys are, the probe does what looking them up in the table of the model does. If all of
-- them name coils it prints what the pump has for each of them, and otherwise it names the first key that
-- does not.
theorem read_looks_up (hload : env.load? file = some loaded) (h : Chosen opts loaded model retries)
    (hne : keys ≠ []) (hkeys : ∀ key ∈ keys, key.startsWith "-" = false) :
    ((∀ key ∈ keys, ∃ coil, model.Names key coil) →
      ∃ coils, List.Forall₂ model.Names keys coils ∧
        run (opts ++ "read" :: keys) env file =
          { code := 0
            output := (Document.array (coils.map fun coil =>
              row coil (some (Pump.initialValue coil.address)))).wide ++ "\n" } ∧
        ∀ coil ∈ coils, (Pump.initialValue coil.address).document.compact ≠ "null") ∧
    (¬(∀ key ∈ keys, ∃ coil, model.Names key coil) →
      ∃ before key after, keys = before ++ key :: after ∧
        (∀ known ∈ before, ∃ coil, model.Names known coil) ∧ (∀ coil, ¬model.Names key coil) ∧
        run (opts ++ "read" :: keys) env file =
          { code := 2, log := [Exit.error ("Unknown coil for " ++ model.name ++ ": " ++ key)] }) := by
  have hcommand : Arguments.isOption "read" = false := Arguments.isOption_eq_false_of_head? (by decide)
  obtain ⟨s, hready, hrun⟩ := run_chosen hload h hcommand keys
  rw [request_read hne fun key hkey => Arguments.isOption_eq_false (hkeys key hkey)] at hrun
  constructor
  · intro hnamed
    obtain ⟨coils, hcoils⟩ := exists_forall₂ hnamed
    refine ⟨coils, hcoils, hrun.trans (read_known hready hcoils), fun coil hcoil => ?_⟩
    have hmem := Model.mem_coils_of_names hcoils coil hcoil
    exact initialValue_written coil (model.coils_sublist.subset hmem)
  · intro hunnamed
    obtain ⟨before, key, after, rfl, hbefore, hkey⟩ := exists_first hunnamed
    have hnone : ∀ coil, ¬model.Names key coil := not_exists.mp hkey
    refine ⟨before, key, after, rfl, hbefore, hnone, hrun.trans ?_⟩
    show read s model (before ++ key :: after) = unknownCoil model key
    rw [read, findCoils_eq_error hbefore hnone]

-- One coil by its address, with a sign and a zero in front, and then by its name, without any attempt to
-- spare. The second list goes wrong at its second key.
theorem read_looks_up_twice :
    (run (["--model", "F1155", "--retries", "0"] ++ "read" :: ["+040013", "bt7-hw-top-40013"]) ⟨[]⟩ none).code =
      0 ∧
    (run (["--model", "F1155", "--retries", "0"] ++ "read" :: ["40013", "bt7", "4711"]) ⟨[]⟩ none).code =
      2 := by
  have hload : Environment.load? ⟨[]⟩ none = some ⟨[]⟩ := rfl
  have hchosen : Chosen ["--model", "F1155", "--retries", "0"] ⟨[]⟩ .f1155 0 := chosen_named .f1155 0 ⟨[]⟩
  have hnamed : ∀ key ∈ ["+040013", "bt7-hw-top-40013"], ∃ coil, Model.f1155.Names key coil := by
    have hfound : ∀ key ∈ ["+040013", "bt7-hw-top-40013"], (Model.f1155.findCoil? key).isSome := by
      decide
    intro key hkey
    obtain ⟨coil, hcoil⟩ := Option.isSome_iff_exists.mp (hfound key hkey)
    exact ⟨coil, Model.findCoil?_eq_some_iff.mp hcoil⟩
  have hunnamed : ¬∀ key ∈ ["40013", "bt7", "4711"], ∃ coil, Model.f1155.Names key coil := by
    intro hall
    obtain ⟨coil, hcoil⟩ := hall "bt7" (by decide)
    have hnone : Model.f1155.findCoil? "bt7" = none := by decide
    exact Model.findCoil?_eq_none_iff.mp hnone coil hcoil
  obtain ⟨coils, -, hrun, -⟩ :=
    (read_looks_up hload hchosen (by decide) (by simp)).1 hnamed
  obtain ⟨before, key, after, -, -, -, hfailed⟩ :=
    (read_looks_up hload hchosen (by decide) (by simp)).2 hunnamed
  exact ⟨by rw [hrun], by rw [hfailed]⟩

end Probe

end CoilHub
