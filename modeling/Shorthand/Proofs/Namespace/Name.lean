import Mathlib.Data.List.Basic
import Shorthand.Namespace.Name
import Shorthand.Text.Blank

/-!
Names of namespaces. No delimiter, separator or white space is part of one.
-/

namespace Shorthand
namespace Namespace

/-- The shape of a namespace's name. -/
def IsName (name : Text) : Prop :=
  name ≠ [] ∧ ∀ c ∈ name, isNameChar c = true

theorem nameFault?_eq_none_iff {name : Text} : nameFault? name = none ↔ IsName name := by
  unfold nameFault? IsName
  split
  · simp_all
  · simp_all [List.find?_eq_none]

theorem IsName.not_mem {name : Text} (h : IsName name) {c : Char} (hc : isNameChar c = false) :
    c ∉ name := by
  intro hm
  rw [h.2 c hm] at hc
  contradiction

theorem IsName.head? {name : Text} (h : IsName name) (rest : Text) {c : Char}
    (hc : isNameChar c = false) : (name ++ rest).head? ≠ some c := by
  obtain ⟨x, more, rfl⟩ := List.exists_cons_of_ne_nil h.1
  intro hx
  cases hx
  exact h.not_mem hc List.mem_cons_self

theorem toNat_of_isNameChar {c : Char} (h : isNameChar c = true) :
    45 ≤ c.toNat ∧ c.toNat ≤ 122 := by
  delta isNameChar Char.isAlphanum Char.isAlpha Char.isUpper Char.isLower Char.isDigit at h
  simp only [Bool.or_eq_true, Bool.and_eq_true, decide_eq_true_eq, UInt32.le_iff_toNat_le,
    ge_iff_le] at h
  change ((((65 ≤ c.toNat ∧ c.toNat ≤ 90) ∨ (97 ≤ c.toNat ∧ c.toNat ≤ 122)) ∨
    (48 ≤ c.toNat ∧ c.toNat ≤ 57)) ∨ c = '-') ∨ c = '_' at h
  rcases h with (((h | h) | h) | rfl) | rfl
  · omega
  · omega
  · omega
  · decide
  · decide

theorem isBlank_of_isNameChar {c : Char} (h : isNameChar c = true) : Text.isBlank c = false := by
  have hc := toNat_of_isNameChar h
  simp only [Text.isBlank, Bool.or_eq_false_iff, Bool.and_eq_false_iff, decide_eq_false_iff_not]
  omega

end Namespace
end Shorthand
