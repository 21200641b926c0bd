import InfiniteRicks.Library.Wildcard
import InfiniteRicks.Base58

/-!
# Wildcard matching

`WildcardMatch` (`util.cpp`), by which `-rpcallowip` admits addresses. A `const char*` is the list of the
characters before the terminating NUL, so a `string` that holds a NUL is cut there by `c_str`.
-/

namespace InfiniteRicks

open Library Library.Wildcard
open Base58 (cString cString_eq)

/-- `WildcardMatch` on C strings. `*` is 42 and `?` is 63; an empty list stands where NUL is read. -/
def wildcardMatchChars : Bytes → Bytes → Bool
  | psz, [] => psz.isEmpty
  | psz, c :: mask =>
      if c = 42 then
        wildcardMatchChars psz mask ||
          match psz with
          | [] => false
          | _ :: rest => wildcardMatchChars rest (c :: mask)
      else
        match psz with
        | [] => false
        | d :: rest => if c ≠ 63 ∧ d ≠ c then false else wildcardMatchChars rest mask
termination_by psz mask => psz.length + mask.length

/-- `WildcardMatch`. -/
def wildcardMatch (str mask : Bytes) : Bool := wildcardMatchChars (cString str) (cString mask)

/-- What a character of a mask stands for. -/
def wildcardOf (c : UInt8) : Wildcard UInt8 := if c = 42 then .many else if c = 63 then .one else .only c

/-- The strings that a mask stands for. -/
def maskLanguage (mask : Bytes) : Language UInt8 := languageOf (mask.map wildcardOf)

theorem mem_maskLanguage_nil {psz : Bytes} : psz ∈ maskLanguage [] ↔ psz = [] := mem_languageOf_nil

theorem mem_maskLanguage_many {psz mask : Bytes} :
    psz ∈ maskLanguage (42 :: mask) ↔
      psz ∈ maskLanguage mask ∨ ∃ d rest, psz = d :: rest ∧ rest ∈ maskLanguage (42 :: mask) :=
  mem_languageOf_many

/-- Any character but `*` takes exactly one character. -/
theorem mem_maskLanguage_single {c : UInt8} {psz mask : Bytes} (single : c ≠ 42) :
    psz ∈ maskLanguage (c :: mask) ↔ ∃ d rest, psz = d :: rest ∧ (c = 63 ∨ d = c) ∧ rest ∈ maskLanguage mask := by
  rw [maskLanguage, List.map_cons, wildcardOf, if_neg single]
  split_ifs with question
  · refine mem_languageOf_one.trans ⟨?_, ?_⟩
    · rintro ⟨d, rest, rfl, fits⟩
      exact ⟨d, rest, rfl, .inl question, fits⟩
    · rintro ⟨d, rest, rfl, -, fits⟩
      exact ⟨d, rest, rfl, fits⟩
  · refine mem_languageOf_only.trans ⟨?_, ?_⟩
    · rintro ⟨rest, rfl, fits⟩
      exact ⟨c, rest, rfl, .inr rfl, fits⟩
    · rintro ⟨d, rest, rfl, same, fits⟩
      exact ⟨rest, by rw [same.resolve_left question], fits⟩

theorem wildcardMatchChars_iff (psz mask : Bytes) : wildcardMatchChars psz mask = true ↔ psz ∈ maskLanguage mask := by
  induction psz, mask using wildcardMatchChars.induct with
  | case1 psz => rw [wildcardMatchChars, mem_maskLanguage_nil, List.isEmpty_iff]
  | case2 psz mask skipped taken =>
      rw [mem_maskLanguage_many, ← skipped]
      cases psz with
      | nil => simp [wildcardMatchChars]
      | cons d rest =>
          have taken : wildcardMatchChars rest (42 :: mask) = true ↔ rest ∈ maskLanguage (42 :: mask) := taken
          rw [wildcardMatchChars, if_pos rfl, Bool.or_eq_true, taken]
          simp
  | case3 c mask single =>
      rw [mem_maskLanguage_single single, wildcardMatchChars, if_neg single]
      simp
  | case4 c mask single d rest mismatch =>
      rw [mem_maskLanguage_single single, wildcardMatchChars, if_neg single]
      rw [if_pos mismatch]
      refine ⟨fun impossible => absurd impossible Bool.false_ne_true, ?_⟩
      rintro ⟨d', rest', same, fits, -⟩
      obtain ⟨rfl, rfl⟩ := List.cons_eq_cons.mp same
      exact absurd mismatch (not_and_or.mpr (fits.imp not_not_intro not_not_intro))
  | case5 c mask single d rest fits more =>
      rw [mem_maskLanguage_single single, wildcardMatchChars, if_neg single]
      rw [if_neg fits, more]
      have fits : c = 63 ∨ d = c := (not_and_or.mp fits).imp not_not.mp not_not.mp
      refine ⟨fun inside => ⟨d, rest, rfl, fits, inside⟩, ?_⟩
      rintro ⟨d', rest', same, -, inside⟩
      obtain ⟨rfl, rfl⟩ := List.cons_eq_cons.mp same
      exact inside

/-- What is matched is what comes before the first NUL, in the string and in the mask. -/
theorem wildcardMatch_iff (str mask : Bytes) :
    wildcardMatch str mask = true ↔ cString str ∈ maskLanguage (cString mask) :=
  wildcardMatchChars_iff _ _

example : wildcardMatch [97, 98, 99, 102] [97, 42, 63, 102] = true := by
  simp [wildcardMatch, cString, wildcardMatchChars]

/-- A string with a NUL fits a mask that has nothing for what comes after it. -/
theorem wildcardMatch_cut : ¬ ∀ str mask, wildcardMatch str mask = true ↔ str ∈ maskLanguage mask := by
  intro claim
  have matched : wildcardMatch [97, 0, 98] [97] = true := by simp [wildcardMatch, cString, wildcardMatchChars]
  have inside := (claim _ _).mp matched
  obtain ⟨d, rest, same, -, fits⟩ := (mem_maskLanguage_single (by decide)).mp inside
  rw [mem_maskLanguage_nil] at fits
  rw [fits] at same
  cases same

end InfiniteRicks
