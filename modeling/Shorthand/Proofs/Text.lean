import Mathlib.Data.List.Basic
import Shorthand.Text.Blank

/-!
Cuts and trims of texts, as far as the theory of links needs them.
-/

namespace Shorthand
namespace Text

theorem splitFirst?_append {c : Char} {before : Text} (h : c ∉ before) (after : Text) :
    splitFirst? c (before ++ c :: after) = some (before, after) := by
  induction before with
  | nil => simp [splitFirst?]
  | cons x before ih =>
      simp only [List.mem_cons, not_or] at h
      simp [splitFirst?, Ne.symm h.1, ih h.2]

theorem splitFirst?_eq_none {c : Char} {s : Text} (h : c ∉ s) : splitFirst? c s = none := by
  induction s with
  | nil => rfl
  | cons x s ih =>
      simp only [List.mem_cons, not_or] at h
      simp [splitFirst?, Ne.symm h.1, ih h.2]

theorem splitLast?_append_of_not_mem {c : Char} {s : Text} (h : c ∉ s) (before : Text) :
    splitLast? c (before ++ s) = (splitLast? c before).map fun (b, a) => (b, a ++ s) := by
  induction before with
  | nil =>
      induction s with
      | nil => rfl
      | cons x s ih =>
          simp only [List.mem_cons, not_or] at h
          have hs : splitLast? c s = none := ih h.2
          simp [splitLast?, hs, Ne.symm h.1]
  | cons x before ih =>
      rw [List.cons_append, splitLast?, ih, splitLast?]
      cases splitLast? c before with
      | none => by_cases hx : x = c <;> simp [hx]
      | some _ => rfl

theorem splitLast?_concat (c : Char) (before : Text) :
    splitLast? c (before ++ [c]) = some (before, []) := by
  induction before with
  | nil => simp [splitLast?]
  | cons x before ih => rw [List.cons_append, splitLast?, ih]

theorem splitLast?_eq_none_iff {c : Char} {s : Text} : splitLast? c s = none ↔ c ∉ s := by
  refine ⟨fun h hmem => ?_, fun h => splitLast?_append_of_not_mem h []⟩
  induction s with
  | nil => contradiction
  | cons x s ih =>
      rw [splitLast?] at h
      split at h
      · contradiction
      · rename_i hs
        rcases List.mem_cons.mp hmem with rfl | hmem
        · simp at h
        · exact ih hs hmem

theorem exists_of_splitLast? {c : Char} {s before after : Text}
    (h : splitLast? c s = some (before, after)) : s = before ++ c :: after ∧ c ∉ after := by
  induction s generalizing before with
  | nil => contradiction
  | cons x s ih =>
      rw [splitLast?] at h
      split at h
      · rename_i hs
        cases h
        obtain ⟨rfl, hafter⟩ := ih hs
        exact ⟨rfl, hafter⟩
      · rename_i hs
        split at h
        · rename_i hx
          cases h
          exact ⟨by rw [hx]; rfl, splitLast?_eq_none_iff.mp hs⟩
        · contradiction

theorem splitLast?_append {c : Char} {s before after : Text}
    (h : splitLast? c s = some (before, after)) (a : Text) :
    splitLast? c (a ++ s) = some (a ++ before, after) := by
  induction a with
  | nil => exact h
  | cons x a ih => rw [List.cons_append, splitLast?, ih]; rfl

theorem exists_of_splitFirst? {c : Char} {s before after : Text}
    (h : splitFirst? c s = some (before, after)) : s = before ++ c :: after ∧ c ∉ before := by
  by_cases hc : c ∈ s
  · obtain ⟨b, a, rfl, hb⟩ := List.eq_append_cons_of_mem hc
    rw [splitFirst?_append hb] at h
    cases h
    exact ⟨rfl, hb⟩
  · rw [splitFirst?_eq_none hc] at h
    contradiction

theorem prefix_of_splitFirst? {c : Char} {s before after : Text}
    (h : splitFirst? c s = some (before, after)) : before ++ [c] <+: s := by
  obtain ⟨rfl, -⟩ := exists_of_splitFirst? h
  exact ⟨after, by simp⟩

theorem afterLast_append {c : Char} {s : Text} (h : c ∉ s) (before : Text) :
    (before ++ s).afterLast c = before.afterLast c ++ s := by
  rw [afterLast, splitLast?_append_of_not_mem h, afterLast]
  cases splitLast? c before <;> rfl

theorem afterLast_concat (c : Char) (before : Text) : (before ++ [c]).afterLast c = [] := by
  rw [afterLast, splitLast?_concat]

/-- The text before the first of a character is determined. -/
theorem eq_of_append_cons {c : Char} {a b x y : Text} (ha : c ∉ a) (hb : c ∉ b)
    (h : a ++ c :: x = b ++ c :: y) : a = b ∧ x = y := by
  have hsplit := congrArg (splitFirst? c) h
  rw [splitFirst?_append ha, splitFirst?_append hb] at hsplit
  simpa using hsplit

/-- A prefix that ends in a character does not reach into a text without it. -/
theorem prefix_of_prefix_append_of_not_mem {c : Char} {a b x : Text} (hx : c ∉ x)
    (h : a ++ [c] <+: b ++ x) : a ++ [c] <+: b := by
  obtain ⟨more, hmore⟩ := h
  rcases List.append_eq_append_iff.mp hmore with ⟨e, rfl, -⟩ | ⟨e, he, rfl⟩
  · exact List.prefix_append ..
  · rcases List.eq_nil_or_concat e with rfl | ⟨e, d, rfl⟩
    · simp [he]
    · rw [List.concat_eq_append, ← List.append_assoc] at he
      obtain ⟨-, hd⟩ := List.append_inj' he rfl
      cases hd
      simp at hx

/-- A part at the start does not reach over a character that is not in it. -/
theorem prefix_of_prefix_append {c : Char} {part a b : Text} (hc : c ∉ part)
    (h : part <+: a ++ c :: b) :
    part <+: a := by
  obtain ⟨after, hafter⟩ := h
  rcases List.append_eq_append_iff.mp hafter with ⟨e, rfl, -⟩ | ⟨e, rfl, he⟩
  · exact List.prefix_append ..
  · cases e with
    | nil => simp
    | cons x e =>
        cases he
        exact absurd (List.mem_append_right _ List.mem_cons_self) hc

/-- A text is trimmed already if no white space stands at its ends. -/
theorem trimmed_eq_self {s : Text} (hhead : ∀ c, s.head? = some c → isBlank c = false)
    (hlast : ∀ c, s.getLast? = some c → isBlank c = false) : s.trimmed = s := by
  have drop_self : ∀ t : Text, (∀ c, t.head? = some c → isBlank c = false) →
      t.dropWhile isBlank = t := by
    intro t ht
    cases t with
    | nil => rfl
    | cons c t => rw [List.dropWhile_cons_of_neg (by simp [ht c rfl])]
  rw [trimmed, trim, trimEnd, drop_self s hhead, drop_self s.reverse, List.reverse_reverse]
  simpa [← List.getLast?_eq_head?_reverse] using hlast

@[simp] theorem byteLength_append (a b : Text) :
    (a ++ b).byteLength = a.byteLength + b.byteLength := by
  induction a with
  | nil => simp [byteLength]
  | cons c a ih => simp only [List.cons_append, byteLength, ih, Nat.add_assoc]

theorem byteLength_pos {s : Text} (h : s ≠ []) : 0 < s.byteLength := by
  cases s with
  | nil => exact absurd rfl h
  | cons c s => exact Nat.add_pos_left c.utf8Size_pos _

/-- A number of bytes ends at most one beginning of a text. -/
theorem eq_of_append_eq {a b c d : Text} (h : a ++ b = c ++ d) (hl : a.byteLength = c.byteLength) :
    a = c := by
  have empty_of (a e : Text) (he : (a ++ e).byteLength = a.byteLength) : e = [] := by
    by_contra hne
    have hpos := byteLength_pos hne
    rw [byteLength_append] at he
    omega
  rcases List.append_eq_append_iff.mp h with ⟨e, rfl, -⟩ | ⟨e, rfl, -⟩
  · rw [empty_of a e hl.symm, List.append_nil]
  · rw [empty_of c e hl, List.append_nil]

end Text
end Shorthand
