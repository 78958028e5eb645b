import CoilHub.Config
import CoilHub.Proofs.Numbers.Digits

namespace CoilHub

namespace Environment

section Lookup

variable {env loaded : Environment} {name : String}

end Lookup

end Environment

section Reading

variable {α : Type} {text : List Char}

-- Digits, and perhaps a plus sign in front of them, for a number that is not above a bound.
def ReadsNatural (highest : Nat) (text : List Char) (n : Nat) : Prop :=
  ∃ digits, (text = digits ∨ text = '+' :: digits) ∧ digits ≠ [] ∧ (∀ c ∈ digits, c.isDigit) ∧
    digitsValue digits = n ∧ n ≤ highest

theorem readNat?_eq_some_iff {highest n : Nat} :
    readNat? highest text = some n ↔ ReadsNatural highest text n := by
  have hdigits : ∀ digits, ((readDigits? digits).bind fun n => if n ≤ highest then some n else none) =
      some n ↔ digits ≠ [] ∧ (∀ c ∈ digits, c.isDigit) ∧ digitsValue digits = n ∧ n ≤ highest := by
    intro digits
    simp only [Option.bind_eq_some_iff, Option.ite_none_right_eq_some, Option.some.injEq]
    constructor
    · rintro ⟨m, hread, hle, rfl⟩
      obtain ⟨hne, hall, hvalue⟩ := readDigits?_eq_some_iff.mp hread
      exact ⟨hne, hall, hvalue, hle⟩
    · rintro ⟨hne, hall, hvalue, hle⟩
      exact ⟨n, readDigits?_eq_some_iff.mpr ⟨hne, hall, hvalue⟩, hle, rfl⟩
  unfold readNat?
  split
  · rename_i rest
    rw [hdigits rest]
    constructor
    · exact fun h => ⟨rest, .inr rfl, h⟩
    · rintro ⟨digits, htext | htext, hne, hall, hrest⟩
      · exact absurd (hall '+' (htext ▸ List.mem_cons_self)) (by decide)
      · cases htext
        exact ⟨hne, hall, hrest⟩
  · rename_i hplus
    rw [hdigits text]
    constructor
    · exact fun h => ⟨text, .inl rfl, h⟩
    · rintro ⟨digits, rfl | htext, h⟩
      · exact h
      · exact absurd htext (hplus digits)

def ReadsBool (text : List Char) (b : Bool) : Prop :=
  text = (if b then "true" else "false").toList

-- The name of a model, in any case.
def ReadsModel (text : List Char) (m : Model) : Prop :=
  text.map Char.toLower = m.name.toList.map Char.toLower

theorem readBool?_eq_some_iff {b : Bool} : Config.readBool? text = some b ↔ ReadsBool text b := by
  unfold Config.readBool? ReadsBool
  split
  · rename_i htext
    cases b <;> simp [htext]
  split
  · rename_i htext
    cases b <;> simp [htext]
  · rename_i htrue hfalse
    cases b
    · simpa using hfalse
    · simpa using htrue

-- No two models have the same name, whatever the case of its letters.
theorem lowered_name_inj {m m' : Model}
    (h : m.name.toList.map Char.toLower = m'.name.toList.map Char.toLower) : m = m' := by
  revert h
  cases m <;> cases m' <;> decide

end Reading

section Override

variable {α : Type}

-- The variables that settings are taken from.
inductive Variable
  | connectionType
  | ipAddress
  | uniqueId
  | readPort
  | writePort
  | listeningPort
  | wordSwap
  | model
  | updateInterval
  | readRetries

namespace Variable

def name : Variable → String
  | connectionType => "NIBE_CONNECTION_TYPE"
  | ipAddress => "NIBE_IP_ADDRESS"
  | uniqueId => "NIBE_UNIQUE_ID"
  | readPort => "NIBE_REMOTE_READ_PORT"
  | writePort => "NIBE_REMOTE_WRITE_PORT"
  | listeningPort => "NIBE_LISTENING_PORT"
  | wordSwap => "NIBE_WORD_SWAP"
  | model => "NIBE_MODEL"
  | updateInterval => "NIBE_UPDATE_INTERVAL"
  | readRetries => "NIBE_READ_RETRIES"

-- A text from which the setting is taken just as a configuration has it.
def Shows (config : Config) (text : String) : Variable → Prop
  | connectionType => text = config.gateway.connectionType
  | ipAddress => text = config.gateway.ipAddress
  | uniqueId => text = config.hub.uniqueId
  | readPort => ReadsNatural 65535 (trim text.toList) config.gateway.readPort.toNat
  | writePort => ReadsNatural 65535 (trim text.toList) config.gateway.writePort.toNat
  | listeningPort => ReadsNatural 65535 (trim text.toList) config.gateway.listeningPort.toNat
  | wordSwap => ReadsBool (trim text.toList) config.gateway.wordSwap
  | model => ReadsModel (trim text.toList) config.gateway.model
  | updateInterval =>
    ReadsNatural (UInt64.size - 1) (trim text.toList) config.hub.updateInterval.toNat
  | readRetries => ReadsNatural (UInt32.size - 1) (trim text.toList) config.hub.readRetries.toNat

end Variable

section Hiding

theorem ReadsNatural.unique {highest n m : Nat} {text : List Char} (hn : ReadsNatural highest text n)
    (hm : ReadsNatural highest text m) : n = m := by
  rw [← readNat?_eq_some_iff] at hn hm
  exact Option.some.inj (hn.symm.trans hm)

theorem ReadsBool.unique {a b : Bool} {text : List Char} (ha : ReadsBool text a)
    (hb : ReadsBool text b) : a = b := by
  rw [← readBool?_eq_some_iff] at ha hb
  exact Option.some.inj (ha.symm.trans hb)

theorem ReadsModel.unique {m m' : Model} {text : List Char} (hm : ReadsModel text m)
    (hm' : ReadsModel text m') : m = m' := lowered_name_inj (hm.symm.trans hm')

variable {taken? layered? : String → Option String} {x : Variable} {text : String}
  {base result : Config}

end Hiding

end Override

end CoilHub
