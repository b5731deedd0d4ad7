import Mathlib.Data.List.Basic
import Mathlib.Data.List.TakeWhile
import Shorthand.Link

/-!
The grammar of links, stated apart from the recognizer, and their agreement: at each place of a
line the recognizer finds the one link that the grammar allows there, or none.
-/

namespace Shorthand
namespace Link

/-- A character of a target that is no parenthesis. -/
def IsPlain (c : Char) : Prop :=
  c ≠ '(' ∧ c ≠ ')' ∧ Text.isBlank c = false

/-- A target is made of plain characters and of groups of them in parentheses. -/
inductive IsTarget : Text → Prop
  | nil : IsTarget []
  | plain {c : Char} {rest : Text} : IsPlain c → IsTarget rest → IsTarget (c :: rest)
  | group {g rest : Text} :
      (∀ c ∈ g, IsPlain c) → IsTarget rest → IsTarget ('(' :: (g ++ ')' :: rest))

structure IsLink (l : Link) : Prop where
  label_ne_nil : l.label ≠ []
  not_mem_label : ']' ∉ l.label
  isTarget : IsTarget l.target

theorem IsTarget.group_cons {c : Char} {t : Text} (hc : IsPlain c) (h : IsTarget ('(' :: t)) :
    IsTarget ('(' :: c :: t) := by
  cases h with
  | plain hp _ => exact absurd rfl hp.1
  | group hg hr =>
      rw [← List.cons_append]
      refine .group (fun d hd => ?_) hr
      rcases List.mem_cons.mp hd with rfl | hd
      · exact hc
      · exact hg d hd

theorem target?_plain {c : Char} (hc : IsPlain c) (inside : Bool) (s : Text) :
    target? inside (c :: s) = (target? inside s).map (c :: ·) := by
  obtain ⟨hopen, hclose, hblank⟩ := hc
  cases inside <;> simp [target?, hopen, hclose, hblank]

theorem target?_blank {c : Char} (hc : Text.isBlank c = true) (inside : Bool) (s : Text) :
    target? inside (c :: s) = none := by
  have hopen : c ≠ '(' := by rintro rfl; contradiction
  have hclose : c ≠ ')' := by rintro rfl; contradiction
  cases inside <;> simp [target?, hopen, hclose, hc]

theorem target?_open (s : Text) : target? false ('(' :: s) = (target? true s).map ('(' :: ·) := rfl

theorem target?_close (s : Text) : target? true (')' :: s) = (target? false s).map (')' :: ·) := rfl

/-- What the recognizer reads is a target up to the parenthesis that closes the link. Inside a
group its opening parenthesis has been read before. -/
theorem isTarget_of_target? {inside : Bool} {s t : Text} (h : target? inside s = some t) :
    IsTarget (if inside then '(' :: t else t) ∧ ∃ rest, s = t ++ ')' :: rest := by
  induction s generalizing inside t with
  | nil => cases inside <;> contradiction
  | cons c s ih =>
      by_cases hblank : Text.isBlank c = true
      · rw [target?_blank hblank] at h
        contradiction
      · by_cases hplain : IsPlain c
        · rw [target?_plain hplain] at h
          obtain ⟨u, hu, rfl⟩ := Option.map_eq_some_iff.mp h
          obtain ⟨htarget, rest, rfl⟩ := ih hu
          refine ⟨?_, rest, rfl⟩
          cases inside with
          | false => exact .plain hplain htarget
          | true => exact htarget.group_cons hplain
        · have hparen : c = '(' ∨ c = ')' := by
            simp only [IsPlain, Bool.not_eq_true] at hplain hblank
            tauto
          rcases hparen with rfl | rfl <;> cases inside
          · obtain ⟨u, hu, rfl⟩ := Option.map_eq_some_iff.mp (target?_open s ▸ h)
            obtain ⟨htarget, rest, rfl⟩ := ih hu
            exact ⟨htarget, rest, rfl⟩
          · contradiction
          · cases h
            exact ⟨.nil, s, rfl⟩
          · obtain ⟨u, hu, rfl⟩ := Option.map_eq_some_iff.mp (target?_close s ▸ h)
            obtain ⟨htarget, rest, rfl⟩ := ih hu
            exact ⟨.group (g := []) (by simp) htarget, rest, rfl⟩

theorem prefix_of_target? {inside : Bool} {s t : Text} (h : target? inside s = some t) :
    t <+: s := by
  obtain ⟨-, rest, rfl⟩ := isTarget_of_target? h
  exact List.prefix_append ..

theorem target?_plain_append {a : Text} (ha : ∀ c ∈ a, IsPlain c) (inside : Bool) (s : Text) :
    target? inside (a ++ s) = (target? inside s).map (a ++ ·) := by
  induction a with
  | nil => simp
  | cons c a ih =>
      obtain ⟨hc, ha⟩ := List.forall_mem_cons.mp ha
      rw [List.cons_append, target?_plain hc, ih ha, Option.map_map]
      rfl

theorem target?_group {g : Text} (hg : ∀ c ∈ g, IsPlain c) (s : Text) :
    target? true (g ++ ')' :: s) = (target? false s).map fun t => g ++ ')' :: t := by
  rw [target?_plain_append hg, target?_close, Option.map_map]
  rfl

theorem target?_append {t : Text} (h : IsTarget t) (rest : Text) :
    target? false (t ++ ')' :: rest) = some t := by
  induction h with
  | nil => rfl
  | plain hc _ ih => rw [List.cons_append, target?_plain hc, ih, Option.map_some]
  | group hg _ ih =>
      rw [List.cons_append, List.append_assoc, List.cons_append, target?_open, target?_group hg, ih,
        Option.map_some, Option.map_some]

theorem isLink_of_atStart? {s : Text} {l : Link} (h : atStart? s = some l) :
    l.IsLink ∧ ∃ rest, s = l.written ++ rest := by
  cases s with
  | nil => contradiction
  | cons c s =>
      simp only [atStart?] at h
      split at h
      · contradiction
      · rename_i hopen
        simp only [not_or, ne_eq, not_not] at hopen
        split at h
        · contradiction
        · rename_i after hafter
          obtain ⟨t, ht, rfl⟩ := Option.map_eq_some_iff.mp h
          obtain ⟨htarget, rest, rfl⟩ := isTarget_of_target? ht
          refine ⟨⟨hopen.2, fun hm => ?_, htarget⟩, rest, ?_⟩
          · simpa using List.mem_takeWhile_imp hm
          · have hs := List.prefix_iff_eq_append.mp (List.takeWhile_prefix (l := s) (· ≠ ']'))
            rw [← List.append_eq_of_isPrefixOf?_eq_some hafter] at hs
            rw [hopen.1]
            refine (congrArg ('[' :: ·) hs).symm.trans ?_
            simp [written]

theorem takeWhile_label {label : Text} (h : ']' ∉ label) (after : Text) :
    (label ++ ']' :: after).takeWhile (· ≠ ']') = label := by
  rw [List.takeWhile_append_of_pos]
  · simp
  · intro c hc
    have hcl : c ≠ ']' := fun he => h (he ▸ hc)
    simpa using hcl

theorem IsLink.atStart?_written {l : Link} (h : l.IsLink) (rest : Text) :
    atStart? (l.written ++ rest) = some l := by
  obtain ⟨label, target⟩ := l
  have hs : written ⟨label, target⟩ ++ rest =
      '[' :: (label ++ ']' :: '(' :: (target ++ ')' :: rest)) := by simp [written]
  have hne : label ≠ [] := h.label_ne_nil
  rw [hs, atStart?, takeWhile_label h.not_mem_label, if_neg (by simpa using hne), List.drop_left]
  simp [List.isPrefixOf?, target?_append h.isTarget]

/-- The recognizer finds exactly the links of the grammar. -/
theorem atStart?_eq_some_iff {s : Text} {l : Link} :
    atStart? s = some l ↔ l.IsLink ∧ ∃ rest, s = l.written ++ rest := by
  refine ⟨isLink_of_atStart?, ?_⟩
  rintro ⟨h, rest, rfl⟩
  exact h.atStart?_written rest

/-- Whether a link starts with a bracket depends on the text after its label. -/
theorem atStart?_label {label : Text} (h : ']' ∉ label) (after : Text) :
    atStart? ('[' :: (label ++ ']' :: after)) =
      if label = [] then none else
        match after with
        | '(' :: s => (target? false s).map fun target => ⟨label, target⟩
        | _ => none := by
  simp only [atStart?, takeWhile_label h, List.drop_left]
  cases label with
  | nil => simp
  | cons c label =>
      cases after with
      | nil => simp [List.isPrefixOf?]
      | cons d after =>
          by_cases hd : d = '('
          · subst hd
            simp [List.isPrefixOf?]
          · simp [List.isPrefixOf?, hd, Ne.symm hd]

theorem atStart?_no_label {s : Text} (h : ']' ∉ s) (c : Char) : atStart? (c :: s) = none := by
  rw [Option.eq_none_iff_forall_ne_some]
  intro l hl
  obtain ⟨-, rest, hs⟩ := isLink_of_atStart? hl
  cases hs
  simp at h

end Link
end Shorthand
