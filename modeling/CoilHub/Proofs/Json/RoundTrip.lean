import CoilHub.Json.Records
import CoilHub.Proofs.Json.Scalars

namespace CoilHub

-- The two ways in which the fields of a record can be written: by their names in an object, or in their
-- order in an array.
inductive Layout
  | named
  | listed

-- An object in either way.
def Document.laidOut (layout : Layout) : Document → Document
  | .object members =>
    match layout with
    | .named => .object members
    | .listed => .array (members.map Prod.snd)
  | d => d

def Document.members : Document → List (String × Document)
  | .object members => members
  | _ => []

-- Each value is taken in by the field of its name, in order, and the record comes out in the end.
inductive Puts {α : Type} : List (Field α) → List (String × Document) → α → α → Prop
  | nil (a : α) : Puts [] [] a a
  | cons {name : String} {put : Outline → α → Decoded α} {value : Document} {a b c : α}
      {fields : List (Field α)} {members : List (String × Document)}
      (hput : put value.outline a = .ok b) (hrest : Puts fields members b c) :
      Puts (⟨name, put⟩ :: fields) ((name, value) :: members) a c

namespace RecordFormat

variable {α : Type} {format : RecordFormat α} {fields : List (Field α)}
  {members : List (String × Document)} {a b x : α}

theorem putItems_of_puts (h : Puts fields members a x) :
    format.putItems fields a (Document.outlineItems (members.map Prod.snd)) = .ok x := by
  induction h with
  | nil a => rfl
  | cons hput hrest ih =>
      simp only [List.map_cons, Document.outlineItems, putItems, hput]
      exact ih

-- The names of fields, all of them different.
def names (fields : List (Field α)) : List String := fields.map Field.name

theorem not_mem_names {before : List (Field α)} {field : Field α}
    (hnodup : (names (before ++ field :: fields)).Nodup) : field.name ∉ names before := by
  intro hname
  rw [names, List.map_append] at hnodup
  exact (List.nodup_append.mp hnodup).2.2 _ hname _ List.mem_cons_self rfl

theorem find?_name {before : List (Field α)} {field : Field α}
    (hnodup : (names (before ++ field :: fields)).Nodup) :
    (before ++ field :: fields).find? (·.name = field.name) = some field := by
  have hbefore : ∀ f ∈ before, f.name ≠ field.name := fun f hf heq =>
    not_mem_names hnodup (heq ▸ List.mem_map_of_mem hf)
  rw [List.find?_append, List.find?_eq_none.mpr (by simpa using hbefore)]
  simp

-- The members that are still to come belong to the fields that have not been seen.
theorem putMembers_of_puts (h : Puts fields members a x) {before : List (Field α)} {seen : List String}
    (hformat : format.fields = before ++ fields) (hnodup : (names format.fields).Nodup)
    (hseen : ∀ name, name ∈ seen ↔ name ∈ names before)
    (hrequired : ∀ name ∈ format.required, name ∈ names format.fields) :
    format.putMembers seen a (Document.outlineMembers members) = .ok x := by
  induction h generalizing before seen with
  | nil a =>
      have hall : format.required.all seen.contains = true := by
        rw [List.all_eq_true]
        intro name hname
        have hmem := hrequired name hname
        rw [hformat, List.append_nil] at hmem
        simpa using (hseen name).mpr hmem
      rw [Document.outlineMembers, putMembers, if_pos hall]
  | @cons name put value a b c fields members hput hrest ih =>
      have hfind := find?_name (hformat ▸ hnodup)
      rw [← hformat] at hfind
      have hfresh : name ∉ seen := fun hname =>
        not_mem_names (hformat ▸ hnodup) ((hseen name).mp hname)
      have hnext := ih (show format.fields = (before ++ [⟨name, put⟩]) ++ fields by simp [hformat])
        (show ∀ n, n ∈ name :: seen ↔ n ∈ names (before ++ [⟨name, put⟩]) by
          simp [names, hseen, or_comm])
      rw [Document.outlineMembers, putMembers, read_quoted]
      simp only [bind, Except.bind, hfind, hput, List.contains_eq_mem, hfresh, decide_false,
        Bool.false_eq_true, if_false]
      exact hnext

-- The record that all fields together make up.
theorem decode_of_puts (h : Puts format.fields members format.blank x)
    (hnodup : (names format.fields).Nodup)
    (hrequired : ∀ name ∈ format.required, name ∈ names format.fields) (layout : Layout) :
    format.decode ((Document.object members).laidOut layout).outline = .ok x := by
  cases layout with
  | named => exact putMembers_of_puts h (List.nil_append _).symm hnodup (fun _ => .rfl) hrequired
  | listed => exact putItems_of_puts h

end RecordFormat

section Records

theorem asPort_integer (port : UInt16) :
    GatewayConfig.asPort (Document.integer port.toNat).outline = .ok port := by
  have hport : port.toNat ≤ 65535 := Nat.le_of_lt_succ port.toNat_lt
  rw [GatewayConfig.asPort, asNatural_integer hport (by decide)]
  exact congrArg Except.ok (UInt16.ofNat_toNat)

theorem decode_model (m : Model) : Model.decode m.document.outline = .ok m := by
  have hnamed : Model.named? m.name = some m := by cases m <;> rfl
  rw [Model.document, Document.outline, Model.decode, read_quoted]
  simp only [bind, Except.bind, hnamed]
  rfl

-- What is read for a field is put into it.
theorem put_ok {α β : Type} {read : Decoded β} {value : β} (h : read = .ok value) (put : β → α) :
    (do return put (← read)) = Except.ok (ε := Refusal) (put value) := by
  rw [h]
  rfl

theorem puts_gateway (c : GatewayConfig) :
    Puts GatewayConfig.format.fields c.document.members {} c :=
  .cons (put_ok (asString_string _) _) <|
  .cons (put_ok (asString_string _) _) <|
  .cons (put_ok (asPort_integer _) _) <|
  .cons (put_ok (asPort_integer _) _) <|
  .cons (put_ok (asPort_integer _) _) <|
  .cons (put_ok (asBool_bool _) _) <|
  .cons (put_ok (decode_model _) _) <|
  .nil c

theorem puts_hub (c : HubConfig) : Puts HubConfig.format.fields c.document.members {} c := by
  have hinterval : c.updateInterval.toNat ≤ UInt64.size - 1 :=
    Nat.le_of_lt_succ c.updateInterval.toNat_lt
  have hretries : c.readRetries.toNat ≤ UInt32.size - 1 :=
    Nat.le_of_lt_succ c.readRetries.toNat_lt
  have hputs : Puts HubConfig.format.fields c.document.members {}
      { c with
        updateInterval := UInt64.ofNat c.updateInterval.toNat
        readRetries := UInt32.ofNat c.readRetries.toNat } :=
    .cons (put_ok (asString_string _) _) <|
    .cons (put_ok (asString_string _) _) <|
    .cons (put_ok (asNatural_integer hinterval (by decide)) _) <|
    .cons (put_ok (asNatural_integer hretries (by decide)) _) <|
    .nil _
  simpa only [UInt64.ofNat_toNat, UInt32.ofNat_toNat] using hputs

theorem puts_coil (coil : Coil) :
    Puts Coil.format.fields coil.document.members Coil.format.blank coil := by
  have haddress : coil.address.toNat ≤ 65535 := Nat.le_of_lt_succ coil.address.toNat_lt
  have hputs : Puts Coil.format.fields coil.document.members Coil.format.blank
      { coil with address := UInt16.ofNat coil.address.toNat } :=
    .cons (put_ok (asNatural_integer haddress (by decide)) _) <|
    .cons (put_ok (asString_string _) _) <|
    .cons (put_ok (asString_string _) _) <|
    .cons (put_ok (asOption_string _) _) <|
    .cons (put_ok (asBool_bool _) _) <|
    .nil _
  simpa only [UInt16.ofNat_toNat] using hputs

theorem asPair_strings (pair : String × String) :
    (Document.array [.string pair.1, .string pair.2]).outline.asPair Outline.asString Outline.asString =
      .ok pair := by
  simp only [Document.outline, Document.outlineItems, Outline.asPair]
  rw [← Document.outline, ← Document.outline, asString_string, asString_string]
  rfl

theorem puts_device (info : DeviceInfo) :
    Puts DeviceInfo.format.fields info.document.members DeviceInfo.format.blank info :=
  .cons (put_ok (decodeEach_map asPair_strings _) _) <|
  .cons (put_ok (asString_string _) _) <|
  .cons (put_ok (asString_string _) _) <|
  .cons (put_ok (asString_string _) _) <|
  .nil info

theorem decode_gateway (layout : Layout) (c : GatewayConfig) :
    GatewayConfig.format.decode (c.document.laidOut layout).outline = .ok c :=
  RecordFormat.decode_of_puts (puts_gateway c) (by decide) (by simp [GatewayConfig.format]) layout

theorem decode_hub (layout : Layout) (c : HubConfig) :
    HubConfig.format.decode (c.document.laidOut layout).outline = .ok c :=
  RecordFormat.decode_of_puts (puts_hub c) (by decide) (by simp [HubConfig.format]) layout

-- A configuration, with each of its records in a layout of its own.
def Config.laidOut (outer gateway hub : Layout) (c : Config) : Document :=
  Document.laidOut outer <| .object
    [("gateway", c.gateway.document.laidOut gateway), ("coordinator", c.hub.document.laidOut hub)]

theorem decode_config (outer gateway hub : Layout) (c : Config) :
    Config.format.decode (c.laidOut outer gateway hub).outline = .ok c :=
  RecordFormat.decode_of_puts
    (.cons (put_ok (decode_gateway gateway c.gateway) _) <|
      .cons (put_ok (decode_hub hub c.hub) _) <|
      .nil c)
    (by decide) (by simp [Config.format]) outer

theorem decode_coil (coil : Coil) : Coil.format.decode coil.document.outline = .ok coil :=
  RecordFormat.decode_of_puts (puts_coil coil) (by decide) (by decide) .named

theorem decode_device (info : DeviceInfo) : DeviceInfo.format.decode info.document.outline = .ok info :=
  RecordFormat.decode_of_puts (puts_device info) (by decide) (by decide) .named

-- Decoding undoes encoding, for all records. A record of the configuration may just as well be written
-- as the array of its values, and so may each record within it.
theorem decode_undoes_encode :
    (∀ c : Config, decodeText Config.format.decode c.document.compact = .ok c) ∧
    (∀ c : HubConfig, decodeText HubConfig.format.decode c.document.compact = .ok c) ∧
    (∀ c : GatewayConfig, decodeText GatewayConfig.format.decode c.document.compact = .ok c) ∧
    (∀ coil : Coil, decodeText Coil.format.decode coil.document.compact = .ok coil) ∧
    (∀ info : DeviceInfo, decodeText DeviceInfo.format.decode info.document.compact = .ok info) ∧
    (∀ (outer gateway hub : Layout) (c : Config),
      decodeText Config.format.decode (c.laidOut outer gateway hub).compact = .ok c) ∧
    (∀ (layout : Layout) (c : HubConfig),
      decodeText HubConfig.format.decode (c.document.laidOut layout).compact = .ok c) ∧
    (∀ (layout : Layout) (c : GatewayConfig),
      decodeText GatewayConfig.format.decode (c.document.laidOut layout).compact = .ok c) := by
  simp only [decodeText_compact]
  exact ⟨decode_config .named .named .named, decode_hub .named, decode_gateway .named, decode_coil,
    decode_device, decode_config, decode_hub, decode_gateway⟩

end Records

end CoilHub
