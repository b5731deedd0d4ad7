import Mathlib.Data.List.TakeWhile
import Shorthand.Proofs.Namespace.Name
import Shorthand.Scheme

/-!
Protocol markers as a shape: letters, a colon and two slashes.
-/

namespace Shorthand

/-- The shape of a target with a protocol marker. -/
def IsScheme (scheme : Text) : Prop :=
  scheme ≠ [] ∧ ∀ c ∈ scheme, c.isAlpha = true

/-- A scheme could be the name of a namespace. -/
theorem IsScheme.isName {scheme : Text} (h : IsScheme scheme) : Namespace.IsName scheme :=
  ⟨h.1, fun c hc => by simp [Namespace.isNameChar, Char.isAlphanum, h.2 c hc]⟩

theorem schemeLength?_append {scheme : Text} (h : IsScheme scheme) (rest : Text) :
    schemeLength? (scheme ++ ':' :: '/' :: '/' :: rest) = some (scheme.length + 3) := by
  have hletters : (scheme ++ ':' :: '/' :: '/' :: rest).takeWhile Char.isAlpha = scheme := by
    rw [List.takeWhile_append_of_pos h.2, List.takeWhile_cons_of_neg (by decide), List.append_nil]
  simp [schemeLength?, hletters, h.1]

theorem exists_of_schemeLength? {target : Text} {n : Nat} (h : schemeLength? target = some n) :
    ∃ scheme rest, IsScheme scheme ∧ target = scheme ++ ':' :: '/' :: '/' :: rest ∧
      n = scheme.length + 3 := by
  simp only [schemeLength?] at h
  split at h
  · rename_i hmarker
    cases h
    obtain ⟨rest, hrest⟩ := List.isPrefixOf_iff_prefix.mp hmarker.2
    refine ⟨_, rest, ⟨hmarker.1, fun c hc => List.mem_takeWhile_imp hc⟩, ?_, rfl⟩
    have hsplit := List.prefix_iff_eq_append.mp (List.takeWhile_prefix (l := target) Char.isAlpha)
    rw [← hrest] at hsplit
    exact hsplit.symm
  · contradiction

theorem hasProtocol_iff {target : Text} : hasProtocol target = true ↔
    ∃ scheme rest, IsScheme scheme ∧ target = scheme ++ ':' :: '/' :: '/' :: rest := by
  rw [hasProtocol, Option.isSome_iff_exists]
  constructor
  · intro ⟨n, hn⟩
    obtain ⟨scheme, rest, hs, htarget, -⟩ := exists_of_schemeLength? hn
    exact ⟨scheme, rest, hs, htarget⟩
  · intro ⟨scheme, rest, hs, htarget⟩
    exact ⟨_, htarget ▸ schemeLength?_append hs rest⟩

/-- A target without a colon or without a slash has no marker. -/
theorem schemeLength?_eq_none_of_not_mem {target : Text} {c : Char} (hc : c ∈ [':', '/'])
    (h : c ∉ target) : schemeLength? target = none := by
  rw [Option.eq_none_iff_forall_ne_some]
  intro n hn
  obtain ⟨scheme, rest, -, rfl, -⟩ := exists_of_schemeLength? hn
  refine h (List.mem_append_right _ ?_)
  simp only [List.mem_cons, List.not_mem_nil, or_false] at hc
  rcases hc with rfl | rfl <;> simp

theorem hasProtocol_of_not_mem {target : Text} (h : ':' ∉ target) : hasProtocol target = false := by
  rw [hasProtocol, schemeLength?_eq_none_of_not_mem (by simp) h, Option.isSome_none]

end Shorthand
