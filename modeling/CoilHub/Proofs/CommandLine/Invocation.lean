import CoilHub.Proofs.CommandLine.Lookup
import CoilHub.Proofs.Interleaving.Solo
import CoilHub.Proofs.Refresh.Undisturbed
import CoilHub.Proofs.Values.Reread

namespace CoilHub

namespace Arguments

variable {switches : List Switch} {opts rest : List String} {found found' : Settings} {arg : String}

-- Options that are in order by themselves are in order in front of an operand.
theorem options_append (harg : isOption arg = false)
    (h : options switches found opts = .ok (found', [])) :
    options switches found (opts ++ arg :: rest) = .ok (found', arg :: rest) := by
  fun_induction options switches found opts with
  | case1 found =>
      cases h
      simp [options, harg]
  | case7 found first hoption hhelp hlong name switch hswitch hgiven rest haccepts hsplit ih =>
      rw [List.cons_append, options]
      simp [hoption, hhelp, hlong, hsplit, hswitch, hgiven, haccepts, ih h]
  | case9 found first hoption hhelp hlong name switch hswitch hgiven accepts value rest haccepts hvalue
      hsplit ih =>
      rw [List.cons_append, options]
      simp [hoption, hhelp, hlong, hsplit, hswitch, hgiven, haccepts, hvalue, ih h]
  | case11 found first hoption hhelp hlong name switch hswitch hgiven accepts value rest haccepts hsplit
      hvalue ih =>
      rw [List.cons_append, List.cons_append, options]
      simp [hoption, hhelp, hlong, hsplit, hswitch, hgiven, haccepts, hvalue, ih h]
  -- the others are out of order
  | _ => cases h

theorem options_value {name value : String} {switch : Switch} {accepts : String → Bool}
    (hoption : (decide (arg = "--") || !isOption arg) = false) (hhelp : isHelp arg = false)
    (hlong : arg.startsWith "--" = true) (hsplit : splitOption arg = (name, none))
    (hswitch : switches.find? (·.name = name) = some switch) (hgiven : found.any (·.1 = name) = false)
    (haccepts : switch.accepts = some accepts) (hvalue : (!isOption value && accepts value) = true) :
    options switches found (arg :: value :: rest) = options switches ((name, value) :: found) rest := by
  rw [options]
  simp [hoption, hhelp, hlong, hsplit, hswitch, hgiven, haccepts, hvalue]

theorem isOption_eq_false (h : arg.startsWith "-" = false) : isOption arg = false := by
  rw [isOption, h, Bool.false_and]

theorem isHelp_eq_false (h : isOption arg = false) : isHelp arg = false := by
  rw [isHelp, Bool.or_eq_false_iff, decide_eq_false_iff_not, decide_eq_false_iff_not]
  constructor <;> rintro rfl
  · exact absurd h (by simp [isOption])
  · exact absurd h (by simp [isOption])

theorem ne_hyphens (h : isOption arg = false) : arg ≠ "--" := by
  rintro rfl
  exact absurd h (by simp [isOption])

theorem isOption_eq_false_of_head? (h : arg.toList.head? ≠ some '-') : isOption arg = false := by
  apply isOption_eq_false
  rw [Bool.eq_false_iff, ne_eq, String.startsWith_string_iff]
  rintro ⟨rest, hrest⟩
  exact h (by rw [← hrest]; rfl)

theorem isOption_decimalDigits (n : Nat) : isOption (String.ofList (decimalDigits n)) = false := by
  apply isOption_eq_false_of_head?
  rw [String.toList_ofList]
  intro hhead
  have hdigit := isDigit_of_mem_decimalDigits '-' (List.mem_of_mem_head? hhead)
  exact absurd hdigit (by decide)

-- Whatever is no option is an operand.
theorem operands_eq_ok {args : List String} (h : ∀ arg ∈ args, isOption arg = false)
    (before : List String) : operands none before args = .ok (before ++ args) := by
  induction args generalizing before with
  | nil => rw [operands, List.append_nil]
  | cons arg args ih =>
      have harg := h arg List.mem_cons_self
      rw [operands, if_neg (ne_hyphens harg), isHelp_eq_false harg, harg]
      simp [ih fun arg hmem => h arg (List.mem_cons_of_mem _ hmem)]

end Arguments

namespace Probe

variable {α : Type} {opts : List String} {env loaded : Environment} {file : Option ByteArray}
  {model : Model} {retries : UInt32}

-- An option counts before the variable, and what counts has to be readable. There is a default for a
-- setting that neither of them gives.
def Gives (read : String → Option α) (given : Option String) (preset : Option Content)
    (default value : α) : Prop :=
  match given, preset with
  | some text, _ => read text = some value
  | none, some (.text text) => read text = some value
  | none, some (.bytes _ _) => False
  | none, none => value = default

-- The options and the environment are in order, and ask for this model and this number of attempts.
def Chosen (opts : List String) (env : Environment) (model : Model) (retries : UInt32) : Prop :=
  ∃ found, Arguments.options switches [] opts = .ok (found, []) ∧
    Gives Model.read? (found.lookup "model") (env.content? "NIBE_MODEL") .f1255 model ∧
    Gives readRetries? (found.lookup "retries") (env.content? "NIBE_READ_RETRIES") 5 retries

-- A setting that is not given may come from elsewhere, where its variable has been looked at as well.
theorem exists_valueOf {read : String → Option α} {given : Option String} {preset : Option Content}
    {default value : α} (h : Gives read given preset default value) {fallback : α}
    (hfallback : preset = none → fallback = default) :
    ∃ text, Arguments.valueOf given preset (fun text => (read text).isSome) = .ok text ∧
      (text.bind read).getD fallback = value := by
  cases given with
  | some text =>
      have hread : read text = some value := h
      exact ⟨some text, rfl, by simp [hread]⟩
  | none =>
      match preset with
      | none =>
          have hdefault : value = default := h
          exact ⟨none, rfl, (hfallback rfl).trans hdefault.symm⟩
      | some (.text text) =>
          have hread : read text = some value := h
          exact ⟨some text, by simp [Arguments.valueOf, hread], by simp [hread]⟩
      | some (.bytes content hbytes) => exact absurd h id

-- A hub on a fresh pump of a model, which has been started and has done nothing else.
structure Ready (model : Model) (s : System) : Prop where
  rested : s.Rested
  cache : s.hub.cache = {}
  registry : s.hub.registry = {}
  gateway : s.hub.gateway = { source := .pump { Pump.ofModel model with running := true } }

-- The hub with which a command begins.
def opened (settings : HubConfig) (model : Model) : System :=
  (({ hub := { settings, model, gateway := { source := .pump (.ofModel model) } } } : System).run .start).2

theorem ready_opened (settings : HubConfig) (model : Model) : Ready model (opened settings model) := by
  have hrested : ({ hub := { settings, model, gateway := { source := .pump (.ofModel model) } } } :
      System).Rested := ⟨nofun, rfl, rfl, rfl⟩
  obtain ⟨t, hrun, hstarted⟩ := System.run_start hrested
  rw [opened, hrun]
  exact ⟨hstarted.rested, hstarted.cache, hstarted.registry, hstarted.gateway⟩

-- What a command comes to.
def execute (model : Model) (s : System) : Request → Exit
  | .list => print (.array (model.coils.map Coil.document))
  | .read keys => read s model keys
  | .write key value => write s model key value

-- Options that are in order leave the arguments behind them to the command.
theorem call_chosen (h : Chosen opts env model retries) {arg : String}
    (harg : Arguments.isOption arg = false) (rest : List String) :
    ∃ name number, call (opts ++ arg :: rest) env = (request (arg :: rest)).map (Call.mk name number) ∧
      name.getD (({} : Config).override env).gateway.model = model ∧
      number.getD (({} : Config).override env).hub.readRetries = retries := by
  obtain ⟨found, hoptions, hmodel, hretries⟩ := h
  have hmodelPreset : env.content? "NIBE_MODEL" = none →
      (({} : Config).override env).gateway.model = .f1255 := fun hnone => by
    simp [Config.override, Config.setting?, Environment.get?, hnone]
  have hretriesPreset : env.content? "NIBE_READ_RETRIES" = none →
      (({} : Config).override env).hub.readRetries = 5 := fun hnone => by
    simp [Config.override, Config.setting?, Environment.get?, hnone]
  obtain ⟨name, hname, hchosen⟩ := exists_valueOf hmodel hmodelPreset
  obtain ⟨number, hnumber, hattempts⟩ := exists_valueOf hretries hretriesPreset
  refine ⟨_, _, ?_, hchosen, hattempts⟩
  have haccepts : Arguments.valueOf (found.lookup "model") (env.content? "NIBE_MODEL") acceptsModel =
      .ok name := hname
  have hcounts : Arguments.valueOf (found.lookup "retries")
      (env.content? "NIBE_READ_RETRIES") acceptsRetries = .ok number := hnumber
  unfold call
  rw [Arguments.options_append harg hoptions]
  cases hrequest : request (arg :: rest) with
  | error fault => simp [bind, Except.bind, Except.map, hrequest]
  | ok request =>
      simp [bind, Except.bind, Except.map, pure, Except.pure, hrequest, haccepts, hcounts]

theorem run_chosen (hload : env.load? file = some loaded) (h : Chosen opts loaded model retries)
    {arg : String} (harg : Arguments.isOption arg = false) (rest : List String) :
    ∃ s, Ready model s ∧
      run (opts ++ arg :: rest) env file =
        match request (arg :: rest) with
        | .error fault => .ofFault fault
        | .ok request => execute model s request := by
  obtain ⟨name, number, hcall, hmodel, hretries⟩ := call_chosen h harg rest
  have hready := ready_opened { (({} : Config).override loaded).hub with readRetries := retries } model
  refine ⟨_, hready, ?_⟩
  rw [run, hload]
  dsimp only
  rw [hcall]
  cases hrequest : request (arg :: rest) with
  | error fault => rfl
  | ok request =>
      show answer ⟨name, number, request⟩ loaded = _
      rw [answer, hmodel, hretries]
      cases request <;> rfl

-- Any model and any number of attempts can be asked for by options, whatever the environment says.
theorem chosen_named (model : Model) (retries : UInt32) (env : Environment) :
    Chosen ["--model", model.name, "--retries", String.ofList (decimalDigits retries.toNat)] env model
      retries := by
  let digits := String.ofList (decimalDigits retries.toNat)
  have hmodel : Model.read? model.name = some model := by cases model <;> decide
  have hname : Arguments.isOption model.name = false :=
    Arguments.isOption_eq_false_of_head? (by cases model <;> decide)
  have hretries : readRetries? digits = some retries := by
    have htext : decimalText retries.toNat = decimalDigits retries.toNat := by
      rw [decimalText, if_neg (by omega), Int.natAbs_natCast]
    have hhigh : (retries.toNat : Int) ≤ UInt32.size - 1 := by
      have hlt := retries.toNat_lt
      rw [show UInt32.size = 2 ^ 32 from rfl]
      omega
    rw [readRetries?, String.toList_ofList, ← htext,
      CoilValue.readInt?_decimalText (Int.natCast_nonneg _) hhigh]
    simp
  have hdigits : Arguments.isOption digits = false := Arguments.isOption_decimalDigits _
  refine ⟨[("retries", digits), ("model", model.name)], ?_, hmodel, hretries⟩
  have hfirst : (!Arguments.isOption model.name && acceptsModel model.name) = true := by
    rw [hname, acceptsModel, hmodel]
    rfl
  have hsecond : (!Arguments.isOption digits && acceptsRetries digits) = true := by
    rw [hdigits, acceptsRetries, hretries]
    rfl
  rw [Arguments.options_value (by simp [Arguments.isOption]) (by decide) (by simp) rfl rfl rfl rfl hfirst,
    Arguments.options_value (by simp [Arguments.isOption]) (by decide) (by simp) rfl rfl rfl rfl hsecond]
  rfl

end Probe

end CoilHub
