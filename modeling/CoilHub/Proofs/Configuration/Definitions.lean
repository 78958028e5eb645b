import CoilHub.Environment
import CoilHub.Proofs.Text.Trimming
import Mathlib.Data.List.TakeDrop

namespace CoilHub

namespace Definition

-- The lines of a text. There is one more of them than there are line ends.
inductive Lines : List Char → List (List Char) → Prop
  | last {line : List Char} (hline : '\n' ∉ line) : Lines line [line]
  | next {line text : List Char} {lines : List (List Char)} (hline : '\n' ∉ line)
      (hrest : Lines text lines) : Lines (line ++ '\n' :: text) (line :: lines)

section Lines

variable {text line : List Char} {lines : List (List Char)}

theorem splitLines_newline (text : List Char) : splitLines ('\n' :: text) = [] :: splitLines text := by
  rw [splitLines]

theorem splitLines_cons {c : Char} (hc : c ≠ '\n') (h : splitLines text = line :: lines) :
    splitLines (c :: text) = (c :: line) :: lines := by
  rw [splitLines]
  · rw [h]
  · exact hc

theorem splitLines_append (hline : '\n' ∉ line) (h : splitLines text = [] :: lines) :
    splitLines (line ++ text) = line :: lines := by
  induction line with
  | nil => exact h
  | cons c line ih =>
      have hc : c ≠ '\n' := fun hc => hline (hc ▸ List.mem_cons_self)
      exact splitLines_cons hc (ih fun hmem => hline (List.mem_cons_of_mem _ hmem))

theorem Lines.splitLines_eq (h : Lines text lines) : splitLines text = lines := by
  induction h with
  | @last line hline =>
      have happend : splitLines (line ++ []) = [line] := splitLines_append hline rfl
      rwa [List.append_nil] at happend
  | next hline hrest ih => exact splitLines_append hline (by rw [splitLines_newline, ih])

end Lines

section Quotes

variable {quote : Char} {text inner : List Char}

theorem unquoted?_eq_some_iff : unquoted? quote text = some inner ↔ text = quote :: inner ++ [quote] := by
  constructor
  · intro h
    cases text with
    | nil => cases h
    | cons first rest =>
        rw [unquoted?, Option.ite_none_right_eq_some] at h
        obtain ⟨⟨rfl, hlast⟩, hinner⟩ := h
        cases hinner
        rw [List.cons_append, List.dropLast_append_getLast? _ hlast]
  · rintro rfl
    simp [unquoted?]

def IsQuote (c : Char) : Prop := c = '"' ∨ c = '\''

-- A text, and what is left of it without the pair of quotes around it, if there is one.
inductive Unquotes : List Char → List Char → Prop
  | quoted {quote : Char} (hquote : IsQuote quote) (inner : List Char) :
      Unquotes (quote :: inner ++ [quote]) inner
  | bare {text : List Char}
      (h : ∀ quote, IsQuote quote → ∀ inner, text ≠ quote :: inner ++ [quote]) : Unquotes text text

theorem unquote_quoted (hquote : IsQuote quote) (inner : List Char) :
    unquote (quote :: inner ++ [quote]) = inner := by
  have hself := unquoted?_eq_some_iff.mpr (rfl : quote :: inner ++ [quote] = quote :: inner ++ [quote])
  rcases hquote with rfl | rfl
  · rw [unquote, hself, Option.some_or, Option.getD_some]
  · -- What begins with a single quote is not enclosed by double ones.
    have hnone : unquoted? '"' ('\'' :: inner ++ ['\'']) = none := by simp [unquoted?]
    rw [unquote, hnone, hself, Option.none_or, Option.getD_some]

theorem Unquotes.unquote_eq (h : Unquotes text inner) : unquote text = inner := by
  cases h with
  | quoted hquote inner => exact unquote_quoted hquote inner
  | bare h =>
      have hnone : ∀ quote, IsQuote quote → unquoted? quote text = none := fun quote hquote =>
        Option.eq_none_iff_forall_ne_some.mpr fun inner hinner =>
          h quote hquote inner (unquoted?_eq_some_iff.mp hinner)
      rw [unquote, hnone '"' (.inl rfl), hnone '\'' (.inr rfl)]
      rfl

theorem unquotes_unquote (text : List Char) : Unquotes text (unquote text) := by
  by_cases h : ∃ quote inner, IsQuote quote ∧ text = quote :: inner ++ [quote]
  · obtain ⟨quote, inner, hquote, rfl⟩ := h
    rw [unquote_quoted hquote]
    exact .quoted hquote inner
  · have hbare : Unquotes text text := .bare fun quote hquote inner htext =>
      h ⟨quote, inner, hquote, htext⟩
    rw [hbare.unquote_eq]
    exact hbare

end Quotes

-- A line and the definition in it. The first equals sign divides it, so that the value may have others.
def Defines (line : List Char) (d : Definition) : Prop :=
  ∃ before after value, Trims line (before ++ '=' :: after) ∧ '=' ∉ before ∧
    (before ++ '=' :: after).head? ≠ some '#' ∧ Trims before d.name.toList ∧ Trims after value ∧
    Unquotes value d.value.toList

section Rule

variable {line : List Char} {lines : List (List Char)} {d : Definition}

theorem span_equals {before after : List Char} (hbefore : '=' ∉ before) :
    (before ++ '=' :: after).span (· ≠ '=') = (before, '=' :: after) := by
  have hall : ∀ c ∈ before, decide (c ≠ '=') = true := fun c hc =>
    decide_eq_true fun heq => hbefore (heq ▸ hc)
  rw [List.span_eq_takeWhile_dropWhile, List.takeWhile_append_of_pos hall,
    List.dropWhile_append_of_pos hall]
  simp

theorem ofList_eq_iff {chars : List Char} {s : String} : String.ofList chars = s ↔ chars = s.toList := by
  constructor
  · rintro rfl
    rw [String.toList_ofList]
  · rintro rfl
    rw [String.ofList_toList]

-- What a line is read as that has an equals sign.
theorem ofLine?_of_equals {before after : List Char} (hline : trim line = before ++ '=' :: after)
    (hbefore : '=' ∉ before) :
    ofLine? line = if (before ++ '=' :: after).head? = some '#' then none else some
      { name := String.ofList (trim before), value := String.ofList (unquote (trim after)) } := by
  simp only [ofLine?, hline, span_equals hbefore]

theorem ofLine?_of_noEquals (hline : '=' ∉ trim line) : ofLine? line = none := by
  have hall : ∀ c ∈ trim line, decide (c ≠ '=') = true := fun c hc =>
    decide_eq_true fun heq => hline (heq ▸ hc)
  have hspan : (trim line).span (· ≠ '=') = (trim line, []) := by
    rw [List.span_eq_takeWhile_dropWhile, List.takeWhile_eq_self_iff.mpr hall,
      List.dropWhile_eq_nil_iff.mpr hall]
  simp only [ofLine?, hspan, ite_self]

theorem ofLine?_of_comment (hline : (trim line).head? = some '#') : ofLine? line = none := by
  simp only [ofLine?, if_pos hline]

theorem ofLine?_eq_some_iff : ofLine? line = some d ↔ Defines line d := by
  constructor
  · intro h
    have hequals : '=' ∈ trim line := by
      by_contra hnone
      rw [ofLine?_of_noEquals hnone] at h
      cases h
    obtain ⟨before, after, hsplit, hbefore⟩ := List.eq_append_cons_of_mem hequals
    rw [ofLine?_of_equals hsplit hbefore, Option.ite_none_left_eq_some] at h
    obtain ⟨hcomment, hd⟩ := h
    cases hd
    refine ⟨before, after, trim after, trims_iff.mpr hsplit, hbefore, hcomment, ?_, trims_trim after, ?_⟩
    · rw [String.toList_ofList]
      exact trims_trim before
    · rw [String.toList_ofList]
      exact unquotes_unquote _
  · rintro ⟨before, after, value, hline, hbefore, hcomment, hname, hafter, hvalue⟩
    rw [ofLine?_of_equals hline.trim_eq hbefore, if_neg hcomment, hafter.trim_eq,
      ofList_eq_iff.mpr hname.trim_eq, ofList_eq_iff.mpr hvalue.unquote_eq]

theorem ofText_eq {text : String} (hlines : Lines text.toList lines) :
    ofText text = lines.filterMap ofLine? := by
  rw [ofText, hlines.splitLines_eq]

end Rule

-- A name that a line can begin with.
structure IsName (name : List Char) : Prop where
  ne_nil : name ≠ []
  noEquals : '=' ∉ name
  oneLine : '\n' ∉ name
  noComment : name.head? ≠ some '#'
  head : ∀ c ∈ name.head?, isBlank c = false
  last : ∀ c ∈ name.getLast?, isBlank c = false

-- A line that holds no definition: it is blank, or a comment, or has no equals sign.
inductive Idle : List Char → Prop
  | blank {line : List Char} (h : ∀ c ∈ line, isBlank c) : Idle line
  | comment {front rest : List Char} (h : ∀ c ∈ front, isBlank c) : Idle (front ++ '#' :: rest)
  | noEquals {line : List Char} (h : '=' ∉ line) : Idle line

-- A line as it is written: a definition with its value between quotes, or a line that holds none.
inductive Entry
  | pair (quote : Char) (d : Definition)
  | idle (line : List Char)

namespace Entry

-- Nothing in the value is escaped.
def line : Entry → List Char
  | .pair quote d => d.name.toList ++ '=' :: (quote :: d.value.toList ++ [quote])
  | .idle line => line

def definition? : Entry → Option Definition
  | .pair _ d => some d
  | .idle _ => none

-- What can be written: any value on one line, under any name that a line can begin with.
def Sound : Entry → Prop
  | .pair quote d => IsQuote quote ∧ IsName d.name.toList ∧ '\n' ∉ d.value.toList
  | .idle line => Idle line ∧ '\n' ∉ line

end Entry

-- The file of such lines, each with its line end.
def written (entries : List Entry) : String :=
  String.ofList (entries.flatMap fun entry => entry.line ++ ['\n'])

section Written

variable {line : List Char} {entry : Entry} {entries : List Entry}

theorem not_isBlank_of_isQuote {quote : Char} (h : IsQuote quote) : isBlank quote = false := by
  rcases h with rfl | rfl <;> decide

theorem ofLine?_of_idle (h : Idle line) : ofLine? line = none := by
  cases h with
  | blank h =>
      have htrim : trim line = [] := Trims.trim_eq ⟨⟨line, [], by simp, h, by simp⟩, by simp, by simp⟩
      exact ofLine?_of_noEquals (by simp [htrim])
  | @comment front rest h =>
      refine ofLine?_of_comment ?_
      have hmark : trimStart ('#' :: rest) = '#' :: rest := List.dropWhile_cons_of_neg (by decide)
      rw [head?_trim, trimStart_append h, hmark, List.head?_cons]
  | noEquals h => exact ofLine?_of_noEquals fun hmem => h (mem_of_mem_trim hmem)

theorem ofLine?_pair {quote : Char} {d : Definition} (h : (Entry.pair quote d).Sound) :
    ofLine? (Entry.pair quote d).line = some d := by
  obtain ⟨hquote, hname, -⟩ := h
  have hhead : ∀ rest : List Char, (d.name.toList ++ rest).head? = d.name.toList.head? := fun rest =>
    List.head?_append_of_ne_nil _ hname.ne_nil
  have hblank := not_isBlank_of_isQuote hquote
  have hlast : ∀ front : List Char, ∀ c ∈ (front ++ [quote]).getLast?, isBlank c = false := by
    intro front c hc
    rw [List.getLast?_concat] at hc
    cases hc
    exact hblank
  have hline : (Entry.pair quote d).line =
      d.name.toList ++ '=' :: (quote :: d.value.toList ++ [quote]) := rfl
  rw [ofLine?_eq_some_iff, hline]
  refine ⟨d.name.toList, quote :: d.value.toList ++ [quote], quote :: d.value.toList ++ [quote],
    trims_self ?_ ?_, hname.noEquals, ?_, trims_self hname.head hname.last, trims_self ?_ (hlast _),
    .quoted hquote _⟩
  · rw [hhead]
    exact hname.head
  · have hassoc : d.name.toList ++ '=' :: (quote :: d.value.toList ++ [quote]) =
        (d.name.toList ++ '=' :: quote :: d.value.toList) ++ [quote] := by simp
    rw [hassoc]
    exact hlast _
  · rw [hhead]
    exact hname.noComment
  · simpa using hblank

theorem ofLine?_line (h : entry.Sound) : ofLine? entry.line = entry.definition? := by
  cases entry with
  | pair quote d => exact ofLine?_pair h
  | idle line => exact ofLine?_of_idle h.1

theorem oneLine_line (h : entry.Sound) : '\n' ∉ entry.line := by
  cases entry with
  | idle line => exact h.2
  | pair quote d =>
      obtain ⟨hquote, hname, hvalue⟩ := h
      have hne : '\n' ≠ quote := by rcases hquote with rfl | rfl <;> decide
      simp [Entry.line, hname.oneLine, hvalue, hne]

theorem lines_written (h : ∀ entry ∈ entries, entry.Sound) :
    Lines (written entries).toList (entries.map Entry.line ++ [[]]) := by
  rw [written, String.toList_ofList]
  induction entries with
  | nil => exact .last (by simp)
  | cons entry entries ih =>
      rw [List.flatMap_cons, List.append_assoc]
      exact .next (oneLine_line (h entry List.mem_cons_self))
        (ih fun e he => h e (List.mem_cons_of_mem _ he))

-- A file is read as the definitions that were written, in their order, whatever stands between them.
theorem ofText_written (h : ∀ entry ∈ entries, entry.Sound) :
    ofText (written entries) = entries.filterMap Entry.definition? := by
  have hempty : ofLine? [] = none := rfl
  rw [ofText_eq (lines_written h), List.filterMap_append, List.filterMap_map]
  simp only [List.filterMap_cons, hempty, List.filterMap_nil, List.append_nil]
  exact List.filterMap_congr fun entry hentry => ofLine?_line (h entry hentry)

-- A file with both kinds of quotes, in values that have quotes, equals signs, marks of comments and
-- blanks themselves, and with lines that hold no definition.
def motleyEntries : List Entry :=
  [.idle " # A=\"1\"".toList, .pair '"' { name := "A B", value := " it\'s=\"so\" #1\r" },
    .idle "no definition".toList, .pair '\'' { name := "C", value := "" },
    .pair '"' { name := "A B", value := "\"" }, .idle [' ', '\t']]

theorem sound_motleyEntries : ∀ entry ∈ motleyEntries, entry.Sound := by
  have hname : IsName "A B".toList :=
    ⟨by decide, by decide, by decide, by decide, by simp; decide, by simp; decide⟩
  have hother : IsName "C".toList :=
    ⟨by decide, by decide, by decide, by decide, by simp; decide, by simp; decide⟩
  have hcomment : Idle ([' '] ++ '#' :: " A=\"1\"".toList) := .comment (by simp; decide)
  simp only [motleyEntries, List.forall_mem_cons]
  exact ⟨⟨hcomment, by decide⟩, ⟨.inl rfl, hname, by decide⟩,
    ⟨.noEquals (by decide), by decide⟩, ⟨.inr rfl, hother, by decide⟩, ⟨.inl rfl, hname, by decide⟩,
    ⟨.blank (by simp; decide), by decide⟩, by simp⟩

theorem ofText_written_motley :
    (∀ entry ∈ motleyEntries, entry.Sound) ∧
      ofText (written motleyEntries) =
        [{ name := "A B", value := " it\'s=\"so\" #1\r" }, { name := "C", value := "" },
          { name := "A B", value := "\"" }] :=
  ⟨sound_motleyEntries, ofText_written sound_motleyEntries⟩

end Written

end Definition

end CoilHub
