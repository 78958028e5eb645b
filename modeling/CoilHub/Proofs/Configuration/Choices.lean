import CoilHub.Proofs.Json.RoundTrip

namespace CoilHub

open Outline RecordFormat Document

-- The members of an object as a record takes them: some of its fields, each at most once and with a value
-- that may stand for it, and members that are none of its fields, with any values that can be written. The
-- names are what quoted texts are decoded to, so that they may have escapes.
inductive Chooses (fields : List String) (Stands : String → Outline → Prop) :
    List (Quoted × Outline) → List String → Prop
  | nil : Chooses fields Stands [] []
  | field {q : Quoted} {value : Outline} {name : String} {members : List (Quoted × Outline)}
      {chosen : List String} (hname : q.read = .ok name) (hvalue : Stands name value)
      (hfresh : name ∉ chosen) (hrest : Chooses fields Stands members chosen) :
      Chooses fields Stands ((q, value) :: members) (name :: chosen)
  | other {q : Quoted} {value : Outline} {name : String} {text : List Char}
      {members : List (Quoted × Outline)} {chosen : List String} (hname : q.read = .ok name)
      (hother : name ∉ fields) (hvalue : Spells value text)
      (hrest : Chooses fields Stands members chosen) :
      Chooses fields Stands ((q, value) :: members) chosen

-- Some of the members of an object, in any order.
structure Selects (members selected : List (String × Document)) : Prop where
  mem : ∀ member ∈ selected, member ∈ members
  nodup : (selected.map Prod.fst).Nodup

-- The value of a field is what its record writes for it.
def Encodes (document : Document) (name : String) (value : Outline) : Prop :=
  ∃ d, (name, d) ∈ document.members ∧ value = d.outline

theorem chooses_outlined {selected : List (String × Document)} {Stands : String → Outline → Prop}
    (hnodup : (selected.map Prod.fst).Nodup)
    (hstands : ∀ member ∈ selected, Stands member.1 member.2.outline) (fields : List String) :
    Chooses fields Stands (Document.outlined selected) (selected.map Prod.fst) := by
  induction selected with
  | nil => exact .nil
  | cons member selected ih =>
      obtain ⟨hfresh, hnodup⟩ := List.nodup_cons.mp hnodup
      have hrest := ih hnodup fun m hm => hstands m (List.mem_cons_of_mem _ hm)
      exact .field (read_quoted _) (hstands member List.mem_cons_self) hfresh hrest

-- The text of an object as far as the second name of a field, and whatever comes then.
inductive NamesAgain (fields : List String) (Stands : String → Outline → Prop) : List Char → Prop
  | again {members : List (Quoted × Outline)} {chosen : List String} {q : Quoted} {name : String}
      {start separator label : List Char} (hchooses : Chooses fields Stands members chosen)
      (hstart : SpellsMembers true members start) (hseparator : Separates members.isEmpty separator)
      (hlabel : SpellsQuoted q label) (hname : q.read = .ok name) (hchosen : name ∈ chosen)
      (rest : List Char) :
      NamesAgain fields Stands ('\x7b' :: (start ++ (separator ++ (label ++ rest))))

namespace RecordFormat

variable {α : Type} {format : RecordFormat α} {Stands : String → Outline → Prop} {state : List String → α}
  {members : List (Quoted × Outline)} {chosen seen : List String}

-- A record takes its fields one by one: a value that may stand for a field makes the record that has one
-- more field chosen.
def TakesEach (format : RecordFormat α) (Stands : String → Outline → Prop) (state : List String → α) :
    Prop :=
  ∀ name value seen, Stands name value → ∃ field, format.fields.find? (·.name = name) = some field ∧
    field.put value (state seen) = .ok (state (name :: seen))

theorem find?_eq_none {name : String} (h : name ∉ names format.fields) :
    format.fields.find? (·.name = name) = none := by
  rw [List.find?_eq_none]
  intro field hfield hname
  rw [decide_eq_true_eq] at hname
  exact h (hname ▸ List.mem_map_of_mem hfield)

-- Members that are in order leave the record with their fields chosen as well. The induction is on the
-- members, and the fields that have been seen are those of the record so far.
theorem putMembers_prepend (htakes : format.TakesEach Stands state)
    (h : Chooses (names format.fields) Stands members chosen) (hseen : ∀ name ∈ chosen, name ∉ seen)
    (rest : Members) :
    format.putMembers seen (state seen) (Members.prepend members rest) =
      format.putMembers (chosen.reverse ++ seen) (state (chosen.reverse ++ seen)) rest := by
  induction h generalizing seen with
  | nil => rfl
  | @field q value name members chosen hname hvalue hfresh hrest ih =>
      obtain ⟨field, hfind, hput⟩ := htakes name value seen hvalue
      have hnew : name ∉ seen := hseen name List.mem_cons_self
      have hseen' : ∀ n ∈ chosen, n ∉ name :: seen := by
        intro n hn hmem
        rcases List.mem_cons.mp hmem with rfl | hmem
        · exact hfresh hn
        · exact hseen n (List.mem_cons_of_mem _ hn) hmem
      have hnext := ih hseen'
      rw [Members.prepend, List.foldr_cons, putMembers, hname]
      simp only [bind, Except.bind, hfind, hput, List.contains_eq_mem, hnew, decide_false,
        Bool.false_eq_true, if_false]
      rw [List.reverse_cons, List.append_assoc, List.singleton_append]
      exact hnext
  | other hname hother hvalue hrest ih =>
      have hnext := ih hseen
      rw [Members.prepend, List.foldr_cons, putMembers, hname]
      simp only [bind, Except.bind, find?_eq_none hother, skip_spells hvalue]
      exact hnext

-- A name that is chosen is the name of a field.
theorem exists_field (htakes : format.TakesEach Stands state)
    (h : Chooses (names format.fields) Stands members chosen) {name : String} (hname : name ∈ chosen) :
    ∃ field, format.fields.find? (·.name = name) = some field := by
  induction h with
  | nil => cases hname
  | field _ hvalue _ _ ih =>
      rcases List.mem_cons.mp hname with rfl | hname
      · obtain ⟨field, hfind, -⟩ := htakes _ _ [] hvalue
        exact ⟨field, hfind⟩
      · exact ih hname
  | other _ _ _ _ ih => exact ih hname

-- An object whose first members are in order.
theorem decode_prepend (htakes : format.TakesEach Stands state) (hblank : format.blank = state [])
    (h : Chooses (names format.fields) Stands members chosen) (rest : Members) :
    format.decode (.object (Members.prepend members rest)) =
      format.putMembers chosen.reverse (state chosen.reverse) rest := by
  rw [decode, hblank, putMembers_prepend htakes h (by simp), List.append_nil]

theorem decode_ofMembers (htakes : format.TakesEach Stands state) (hblank : format.blank = state [])
    (hrequired : format.required = []) (h : Chooses (names format.fields) Stands members chosen) :
    format.decode (.ofMembers members) = .ok (state chosen.reverse) := by
  rw [ofMembers, decode_prepend htakes hblank h, putMembers, hrequired]
  rfl

-- A field that is there already is refused at its name.
theorem decode_again (htakes : format.TakesEach Stands state) (hblank : format.blank = state [])
    (h : Chooses (names format.fields) Stands members chosen) {q : Quoted} {name : String}
    (hname : q.read = .ok name) (hchosen : name ∈ chosen) (value : Outline) (rest : Members) :
    format.decode (.object (Members.prepend members (.member q value rest))) = .error .mismatch := by
  have hseen : name ∈ chosen.reverse := List.mem_reverse.mpr hchosen
  obtain ⟨field, hfind⟩ := exists_field htakes h hchosen
  rw [decode_prepend htakes hblank h, putMembers, hname]
  simp only [bind, Except.bind, hfind, List.contains_eq_mem, hseen, decide_true, if_true]
  rfl

theorem decode_namesAgain (htakes : format.TakesEach Stands state) (hblank : format.blank = state [])
    {text : List Char} (h : NamesAgain (names format.fields) Stands text) {fuel : Nat}
    (hfuel : 2 * text.length ≤ fuel + 1) :
    format.decode (scanValue (fuel + 1) text).1 = .error .mismatch := by
  cases h with
  | @again members chosen q name start separator label hchooses hstart hseparator hlabel hname hchosen rest =>
      have hfits : 2 * (start ++ (separator ++ (label ++ rest))).length + 1 ≤ fuel := by
        rw [List.length_cons] at hfuel
        omega
      obtain ⟨left, -, hscan⟩ :=
        scanValue_members hstart (hseparator.endsNumber_quoted hlabel rest) hfits
      obtain ⟨value, members, hfound⟩ := exists_scanMembers hseparator hlabel left rest
      rw [hscan, hfound]
      exact decode_again htakes hblank hchooses hname hchosen value members

-- A value that is refused is refused with the record that it belongs to.
theorem decode_refused (htakes : format.TakesEach Stands state) (hblank : format.blank = state [])
    (h : Chooses (names format.fields) Stands members chosen) {q : Quoted} {name : String}
    {field : Field α} (hname : q.read = .ok name) (hfresh : name ∉ chosen)
    (hfind : format.fields.find? (·.name = name) = some field) {value : Outline} {refusal : Refusal}
    (hvalue : ∀ a, field.put value a = .error refusal) (rest : Members) :
    format.decode (.object (Members.prepend members (.member q value rest))) = .error refusal := by
  have hunseen : name ∉ chosen.reverse := fun hmem => hfresh (List.mem_reverse.mp hmem)
  rw [decode_prepend htakes hblank h, putMembers, hname]
  simp only [bind, Except.bind, hfind, List.contains_eq_mem, hunseen, decide_false, Bool.false_eq_true,
    if_false, hvalue]

end RecordFormat

-- The record that a field is taken from: the given one if the field is chosen, and if not the default one.
def source {α : Type} (chosen : List String) (name : String) (a default : α) : α :=
  if name ∈ chosen then a else default

def GatewayConfig.picked (c : GatewayConfig) (chosen : List String) : GatewayConfig where
  connectionType := (source chosen "connection_type" c {}).connectionType
  ipAddress := (source chosen "ip_address" c {}).ipAddress
  readPort := (source chosen "remote_read_port" c {}).readPort
  writePort := (source chosen "remote_write_port" c {}).writePort
  listeningPort := (source chosen "listening_port" c {}).listeningPort
  wordSwap := (source chosen "word_swap" c {}).wordSwap
  model := (source chosen "model" c {}).model

def HubConfig.picked (c : HubConfig) (chosen : List String) : HubConfig where
  name := (source chosen "name" c {}).name
  uniqueId := (source chosen "unique_id" c {}).uniqueId
  updateInterval := (source chosen "update_interval_secs" c {}).updateInterval
  readRetries := (source chosen "read_retries" c {}).readRetries

section Records

-- What is read for a field is put into the record.
theorem put_eq {α β : Type} {read : Decoded β} {value : β} {put : β → α} {a : α} (h : read = .ok value)
    (ha : put value = a) : (do return put (← read)) = Except.ok (ε := Refusal) a :=
  ha ▸ put_ok h put

theorem takes_gateway (c : GatewayConfig) :
    GatewayConfig.format.TakesEach (Encodes c.document) c.picked := by
  rintro name _ seen ⟨d, hmem, rfl⟩
  simp only [GatewayConfig.document, Document.members, List.mem_cons, Prod.mk.injEq, List.not_mem_nil,
    or_false] at hmem
  rcases hmem with ⟨rfl, rfl⟩ | ⟨rfl, rfl⟩ | ⟨rfl, rfl⟩ | ⟨rfl, rfl⟩ | ⟨rfl, rfl⟩ | ⟨rfl, rfl⟩ | ⟨rfl, rfl⟩
  · exact ⟨_, rfl, put_eq (asString_string _) (by simp [GatewayConfig.picked, source])⟩
  · exact ⟨_, rfl, put_eq (asString_string _) (by simp [GatewayConfig.picked, source])⟩
  · exact ⟨_, rfl, put_eq (asPort_integer _) (by simp [GatewayConfig.picked, source])⟩
  · exact ⟨_, rfl, put_eq (asPort_integer _) (by simp [GatewayConfig.picked, source])⟩
  · exact ⟨_, rfl, put_eq (asPort_integer _) (by simp [GatewayConfig.picked, source])⟩
  · exact ⟨_, rfl, put_eq (asBool_bool _) (by simp [GatewayConfig.picked, source])⟩
  · exact ⟨_, rfl, put_eq (decode_model _) (by simp [GatewayConfig.picked, source])⟩

theorem takes_hub (c : HubConfig) : HubConfig.format.TakesEach (Encodes c.document) c.picked := by
  have hinterval : c.updateInterval.toNat ≤ UInt64.size - 1 :=
    Nat.le_of_lt_succ c.updateInterval.toNat_lt
  have hretries : c.readRetries.toNat ≤ UInt32.size - 1 :=
    Nat.le_of_lt_succ c.readRetries.toNat_lt
  rintro name _ seen ⟨d, hmem, rfl⟩
  simp only [HubConfig.document, Document.members, List.mem_cons, Prod.mk.injEq, List.not_mem_nil,
    or_false] at hmem
  rcases hmem with ⟨rfl, rfl⟩ | ⟨rfl, rfl⟩ | ⟨rfl, rfl⟩ | ⟨rfl, rfl⟩
  · exact ⟨_, rfl, put_eq (asString_string _) (by simp [HubConfig.picked, source])⟩
  · exact ⟨_, rfl, put_eq (asString_string _) (by simp [HubConfig.picked, source])⟩
  · exact ⟨_, rfl, put_eq (asNatural_integer hinterval (by decide)) (by simp [HubConfig.picked, source])⟩
  · exact ⟨_, rfl, put_eq (asNatural_integer hretries (by decide)) (by simp [HubConfig.picked, source])⟩

theorem GatewayConfig.picked_reverse (c : GatewayConfig) (chosen : List String) :
    c.picked chosen.reverse = c.picked chosen := by
  simp [GatewayConfig.picked, source]

theorem HubConfig.picked_reverse (c : HubConfig) (chosen : List String) :
    c.picked chosen.reverse = c.picked chosen := by
  simp [HubConfig.picked, source]

theorem GatewayConfig.picked_nil (c : GatewayConfig) : c.picked [] = {} := by
  simp [GatewayConfig.picked, source]

theorem HubConfig.picked_nil (c : HubConfig) : c.picked [] = {} := by
  simp [HubConfig.picked, source]

end Records

namespace Config

-- The given sections of the configuration, and of each of them the given fields.
def picked (c : Config) (sections gateway hub : List String) : Config where
  gateway := if "gateway" ∈ sections then c.gateway.picked gateway else {}
  hub := if "coordinator" ∈ sections then c.hub.picked hub else {}

-- A section stands for what is chosen in it.
inductive Section (c : Config) (gateway hub : List String) : String → Outline → Prop
  | gateway {members : List (Quoted × Outline)}
      (h : Chooses (names GatewayConfig.format.fields) (Encodes c.gateway.document) members gateway) :
      Section c gateway hub "gateway" (.ofMembers members)
  | hub {members : List (Quoted × Outline)}
      (h : Chooses (names HubConfig.format.fields) (Encodes c.hub.document) members hub) :
      Section c gateway hub "coordinator" (.ofMembers members)

-- The text of the given sections with the given fields, in their order.
def Writes (c : Config) (sections gateway hub : List String) (text : String) : Prop :=
  ∃ members front body back, Chooses (names Config.format.fields) (c.Section gateway hub) members sections ∧
    Spells (.ofMembers members) body ∧ Blanks front ∧ Blanks back ∧ text.toList = front ++ (body ++ back)

-- The text of a configuration that names a field again, in itself or in a section.
inductive Repeats (c : Config) (gateway hub : List String) : List Char → Prop
  | outside {text : List Char} (h : NamesAgain (names Config.format.fields) (c.Section gateway hub) text) :
      Repeats c gateway hub text
  | within {members : List (Quoted × Outline)} {sections : List String} {q : Quoted} {name : String}
      {start separator label before after text : List Char}
      (hchooses : Chooses (names Config.format.fields) (c.Section gateway hub) members sections)
      (hstart : SpellsMembers true members start) (hseparator : Separates members.isEmpty separator)
      (hlabel : SpellsQuoted q label) (hname : q.read = .ok name) (hfresh : name ∉ sections)
      (hbefore : Blanks before) (hafter : Blanks after)
      (h : name = "gateway" ∧
          NamesAgain (names GatewayConfig.format.fields) (Encodes c.gateway.document) text ∨
        name = "coordinator" ∧
          NamesAgain (names HubConfig.format.fields) (Encodes c.hub.document) text) :
      Repeats c gateway hub
        ('\x7b' :: (start ++ (separator ++ (label ++ (before ++ ':' :: (after ++ text))))))

variable {c : Config} {sections gateway hub : List String} {text : List Char}

theorem takes_section (c : Config) (gateway hub : List String) :
    Config.format.TakesEach (c.Section gateway hub) fun sections => c.picked sections gateway hub := by
  intro name value seen h
  cases h with
  | gateway h =>
      have hdecode := decode_ofMembers (takes_gateway c.gateway) c.gateway.picked_nil.symm rfl h
      rw [GatewayConfig.picked_reverse] at hdecode
      exact ⟨_, rfl, put_eq hdecode (by simp [picked])⟩
  | hub h =>
      have hdecode := decode_ofMembers (takes_hub c.hub) c.hub.picked_nil.symm rfl h
      rw [HubConfig.picked_reverse] at hdecode
      exact ⟨_, rfl, put_eq hdecode (by simp [picked])⟩

theorem picked_nil (c : Config) (gateway hub : List String) : c.picked [] gateway hub = {} := rfl

theorem picked_reverse (c : Config) (sections gateway hub : List String) :
    c.picked sections.reverse gateway hub = c.picked sections gateway hub := by
  simp [picked]

theorem decodeText_writes {text : String} (h : c.Writes sections gateway hub text) :
    decodeText Config.format.decode text = .ok (c.picked sections gateway hub) := by
  obtain ⟨members, front, body, back, hchooses, hbody, hfront, hback, htext⟩ := h
  have hdecode := decode_ofMembers (takes_section c gateway hub) (picked_nil ..).symm rfl hchooses
  rw [picked_reverse] at hdecode
  rw [decodeText, htext, ofText_spells hbody hfront hback]
  simp only [hdecode]
  rfl

theorem decode_repeats (h : c.Repeats gateway hub text) {fuel : Nat} (hfuel : 2 * text.length ≤ fuel + 1) :
    Config.format.decode (scanValue (fuel + 1) text).1 = .error .mismatch := by
  have hblank := (picked_nil c gateway hub).symm
  cases h with
  | outside h => exact decode_namesAgain (takes_section c gateway hub) hblank h hfuel
  | @within members sections q name start separator label before after inner hchooses hstart hseparator
      hlabel hname hfresh hbefore hafter h =>
      have hfits : 2 * (start ++ (separator ++ (label ++ (before ++ ':' :: (after ++ inner))))).length + 1 ≤
          fuel := by
        rw [List.length_cons] at hfuel
        omega
      obtain ⟨left, hleft, hscan⟩ :=
        scanValue_members hstart (hseparator.endsNumber_quoted hlabel _) hfits
      obtain ⟨members, hfound⟩ := exists_scanMembers_value hseparator hlabel hbefore hafter left inner
      simp only [List.length_append, List.length_cons] at hleft
      obtain ⟨left, rfl⟩ : ∃ n, left = n + 1 := ⟨left - 1, by omega⟩
      have hinner : 2 * inner.length ≤ left + 1 := by omega
      rw [hscan, hfound]
      rcases h with ⟨rfl, h⟩ | ⟨rfl, h⟩
      · have hrefused := decode_namesAgain (takes_gateway c.gateway) c.gateway.picked_nil.symm h hinner
        refine decode_refused (takes_section c gateway hub) hblank hchooses hname hfresh rfl
          (fun a => ?_) members
        simp only [hrefused]
        rfl
      · have hrefused := decode_namesAgain (takes_hub c.hub) c.hub.picked_nil.symm h hinner
        refine decode_refused (takes_section c gateway hub) hblank hchooses hname hfresh rfl
          (fun a => ?_) members
        simp only [hrefused]
        rfl

theorem decodeText_repeats {text : String} {front body : List Char} (h : c.Repeats gateway hub body)
    (hfront : Blanks front) (htext : text.toList = front ++ body) :
    decodeText Config.format.decode text = .error .mismatch := by
  have hfits : 2 * body.length ≤ 2 * (front ++ body).length + 1 + 1 := by
    rw [List.length_append]
    omega
  rw [decodeText, htext, root_ofText hfront, decode_repeats h hfits]
  rfl

-- The members of an object for the sections, each with the given fields in it.
def sectionMembers (gateway hub : List (String × Document)) : List (String × Document) :=
  [("gateway", .object gateway), ("coordinator", .object hub)]

-- Whatever is selected from what is written for a configuration and its sections is a text of it.
theorem writes_compact {gateway hub sections : List (String × Document)}
    (hgateway : Selects c.gateway.document.members gateway) (hhub : Selects c.hub.document.members hub)
    (hsections : Selects (sectionMembers gateway hub) sections) :
    c.Writes (sections.map Prod.fst) (gateway.map Prod.fst) (hub.map Prod.fst)
      (Document.object sections).compact := by
  have hstands : ∀ member ∈ sections,
      c.Section (gateway.map Prod.fst) (hub.map Prod.fst) member.1 member.2.outline := by
    intro member hmember
    have hmem := hsections.mem member hmember
    simp only [sectionMembers, List.mem_cons, List.not_mem_nil, or_false] at hmem
    rcases hmem with rfl | rfl
    · rw [Document.outline_object]
      exact .gateway (chooses_outlined hgateway.nodup
        (fun member hmember => ⟨_, hgateway.mem member hmember, rfl⟩) _)
    · rw [Document.outline_object]
      exact .hub (chooses_outlined hhub.nodup
        (fun member hmember => ⟨_, hhub.mem member hmember, rfl⟩) _)
  have hspells := spells_print (.object sections)
  rw [Document.outline_object] at hspells
  refine ⟨_, [], _, [], chooses_outlined hsections.nodup hstands _, hspells, blanks_nil, blanks_nil, ?_⟩
  rw [Document.compact, String.toList_ofList, List.nil_append, List.append_nil]

-- Every text of chosen fields is decoded to the configuration that has them from the given one, and all
-- else by default. Any choice in any order has a text, and one that names a field again is no
-- configuration, however it goes on.
theorem decodeText_chosen (c : Config) :
    (∀ sections gateway hub text, c.Writes sections gateway hub text →
      decodeText Config.format.decode text = .ok (c.picked sections gateway hub)) ∧
    (∀ gateway hub sections, Selects c.gateway.document.members gateway →
      Selects c.hub.document.members hub → Selects (sectionMembers gateway hub) sections →
        c.Writes (sections.map Prod.fst) (gateway.map Prod.fst) (hub.map Prod.fst)
          (Document.object sections).compact) ∧
    ∀ gateway hub front body, ∀ text : String, c.Repeats gateway hub body → Blanks front →
      text.toList = front ++ body → decodeText Config.format.decode text = .error .mismatch := by
  refine ⟨fun _ _ _ _ h => decodeText_writes h, fun _ _ _ hgateway hhub => writes_compact hgateway hhub, ?_⟩
  exact fun _ _ _ _ _ h hfront htext => decodeText_repeats h hfront htext

-- A configuration of which one field is written, behind a member of no meaning.
def atticConfig : Config := { hub := { name := "Attic", readRetries := 3 } }

def atticMembers : List (Quoted × Outline) :=
  [(quoted "extra", (Document.array [.null, .string "gateway"]).outline),
    (quoted "coordinator", .ofMembers (outlined [("read_retries", .integer 3)]))]

def atticStart : String := "\"extra\":[null,\"gateway\"], \"coordinator\":\x7b\"read_retries\":3\x7d"

theorem chooses_attic :
    Chooses (names Config.format.fields) (atticConfig.Section [] ["read_retries"]) atticMembers
      ["coordinator"] := by
  have hretries : Chooses (names HubConfig.format.fields) (Encodes atticConfig.hub.document)
      (outlined [("read_retries", .integer 3)]) ["read_retries"] := by
    refine chooses_outlined (by decide) (fun member hmember => ?_) _
    rw [List.mem_singleton.mp hmember]
    exact ⟨.integer 3, .tail _ (.tail _ (.tail _ (.head _))), rfl⟩
  exact .other (read_quoted _) (by decide) (spells_print _)
    (.field (read_quoted _) (.hub hretries) List.not_mem_nil .nil)

theorem spells_attic : SpellsMembers true atticMembers atticStart.toList := by
  have hblank : Blanks [' '] := by simp [Blanks, isSpace]
  have hsection := spells_print (.object [("read_retries", .integer 3)])
  rw [outline_object] at hsection
  have hcoordinator := SpellsMembers.cons (.next blanks_nil hblank) (spells_quote "coordinator") blanks_nil
    blanks_nil hsection .nil
  exact SpellsMembers.cons (.first blanks_nil) (spells_quote "extra") blanks_nil blanks_nil
    (spells_print (.array [.null, .string "gateway"])) hcoordinator

-- Once the text ends there, and once the section is named again, with an escape, and the text breaks off.
theorem decodeText_chosen_attic :
    decodeText Config.format.decode ("\x7b" ++ atticStart ++ "\x7d\n") =
        .ok { hub := { readRetries := 3 } } ∧
      decodeText Config.format.decode ("\x7b" ++ atticStart ++ ",\"\\u0063oordinator\"") =
        .error .mismatch := by
  obtain ⟨hwrites, -, hrepeats⟩ := decodeText_chosen atticConfig
  have hnewline : Blanks ['\n'] := by simp [Blanks, isSpace]
  constructor
  · refine hwrites ["coordinator"] [] ["read_retries"] _ ⟨atticMembers, [], _, ['\n'], chooses_attic,
      .object spells_attic blanks_nil, blanks_nil, hnewline, ?_⟩
    simp
  · have hzero : HexDigit '0' 0 := hexDigit_digitChar (by decide)
    have hagain : SpellsQuoted { pieces := .unit 99 :: "oordinator".toList.map piece }
        "\"\\u0063oordinator\"".toList :=
      .quoted (.cons (.number hzero hzero (hexDigit_digitChar (show 6 < 16 by decide))
        (hexDigit_digitChar (show 3 < 16 by decide)) rfl) (spells_flatMap "oordinator".toList))
    refine hrepeats [] ["read_retries"] [] _ _ (.outside (.again chooses_attic spells_attic
      (.next blanks_nil blanks_nil) hagain ?_ List.mem_cons_self [])) blanks_nil ?_
    · rfl
    · simp

end Config

end CoilHub
