import CoilHub.Proofs.Configuration.Definitions
import CoilHub.Proofs.Configuration.Layers

namespace CoilHub

namespace Environment

open Definition

-- The value that the first line gives which defines a name.
inductive FirstDefines : List (List Char) → String → String → Prop
  | here {line : List Char} {lines : List (List Char)} {name value : String}
      (h : Defines line { name, value }) : FirstDefines (line :: lines) name value
  | later {line : List Char} {lines : List (List Char)} {name value : String}
      (h : ∀ other, ¬Defines line { name, value := other })
      (hrest : FirstDefines lines name value) : FirstDefines (line :: lines) name value

-- No variable can be without a name, and neither its name nor its value can have a NUL in it.
def Unusable (name value : String) : Prop :=
  name = "" ∨ '\x00' ∈ name.toList ∨ '\x00' ∈ value.toList

-- A line is due that cannot be used: its name is not set, neither beforehand nor by a line before it.
def Stuck (env : Environment) (lines : List (List Char)) : Prop :=
  ∃ name value, env.content? name = none ∧ FirstDefines lines name value ∧ Unusable name value

variable {env loaded : Environment} {lines : List (List Char)} {definitions : List Definition}
  {name value : String} {d : Definition}

section Lines

end Lines

section Folding

end Folding

section Loading

theorem get?_eq_none_iff : env.get? name = none ↔
    env.content? name = none ∨ ∃ content, env.content? name = some content ∧ content.text? = none := by
  rw [get?]
  cases env.content? name <;> simp

theorem Stuck.due (h : Stuck env lines) :
    ∃ name value, env.get? name = none ∧ FirstDefines lines name value ∧ Unusable name value := by
  obtain ⟨name, value, hunset, hfirst, hbad⟩ := h
  exact ⟨name, value, get?_eq_none_iff.mpr (.inl hunset), hfirst, hbad⟩

end Loading

end Environment

end CoilHub
