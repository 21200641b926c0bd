import Mathlib.Computability.Language

/-!
# Wildcard patterns

A pattern is a list of wildcards and letters, and its language is the product of theirs. What has to be known to
match a text from its front is how the language of a pattern falls apart at the first letter of the text.
-/

namespace InfiniteRicks.Library

universe u

/-- A place in a pattern over the letters `α`. -/
inductive Wildcard (α : Type u) where
  | many
  | one
  | only (letter : α)
deriving DecidableEq

namespace Wildcard

variable {α : Type u}

/-- The texts that fit in one place. -/
def language : Wildcard α → Language α
  | many => ⊤
  | one => {text | text.length = 1}
  | only letter => {[letter]}

/-- The texts that a pattern stands for. -/
def languageOf (pattern : List (Wildcard α)) : Language α := (pattern.map language).prod

theorem mem_languageOf_nil {text : List α} : text ∈ languageOf [] ↔ text = [] := Language.mem_one text

theorem mem_languageOf_cons {place : Wildcard α} {pattern : List (Wildcard α)} {text : List α} :
    text ∈ languageOf (place :: pattern) ↔ ∃ front ∈ place.language, ∃ back ∈ languageOf pattern, front ++ back = text := by
  rw [languageOf, List.map_cons, List.prod_cons]
  exact Language.mem_mul

/-- Either the sequence for `many` is empty, or it takes in the first letter. -/
theorem mem_languageOf_many {pattern : List (Wildcard α)} {text : List α} :
    text ∈ languageOf (many :: pattern) ↔
      text ∈ languageOf pattern ∨ ∃ letter rest, text = letter :: rest ∧ rest ∈ languageOf (many :: pattern) := by
  rw [mem_languageOf_cons]
  constructor
  · rintro ⟨front, -, back, fits, rfl⟩
    cases front with
    | nil => exact .inl fits
    | cons letter front =>
        exact .inr ⟨letter, front ++ back, rfl, mem_languageOf_cons.mpr ⟨front, trivial, back, fits, rfl⟩⟩
  · rintro (fits | ⟨letter, rest, rfl, more⟩)
    · exact ⟨[], trivial, text, fits, rfl⟩
    · obtain ⟨front, -, back, fits, rfl⟩ := mem_languageOf_cons.mp more
      exact ⟨letter :: front, trivial, back, fits, rfl⟩

theorem mem_languageOf_one {pattern : List (Wildcard α)} {text : List α} :
    text ∈ languageOf (one :: pattern) ↔ ∃ letter rest, text = letter :: rest ∧ rest ∈ languageOf pattern := by
  rw [mem_languageOf_cons]
  constructor
  · rintro ⟨front, single, back, fits, rfl⟩
    obtain ⟨letter, rfl⟩ := List.length_eq_one_iff.mp single
    exact ⟨letter, back, rfl, fits⟩
  · rintro ⟨letter, rest, rfl, fits⟩
    exact ⟨[letter], rfl, rest, fits, rfl⟩

theorem mem_languageOf_only {letter : α} {pattern : List (Wildcard α)} {text : List α} :
    text ∈ languageOf (only letter :: pattern) ↔ ∃ rest, text = letter :: rest ∧ rest ∈ languageOf pattern := by
  rw [mem_languageOf_cons]
  constructor
  · rintro ⟨front, rfl, back, fits, rfl⟩
    exact ⟨back, rfl, fits⟩
  · rintro ⟨rest, rfl, fits⟩
    exact ⟨[letter], rfl, rest, fits, rfl⟩

end Wildcard

end InfiniteRicks.Library
