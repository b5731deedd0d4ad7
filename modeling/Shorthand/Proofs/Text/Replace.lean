import Shorthand.Proofs.Text
import Shorthand.Proofs.Text.Lines

/-!
Replacement of a part of a text. The text is read from the left: an occurrence of the part is taken
whole, and a character where none starts is passed over.
-/

namespace Shorthand
namespace Text

variable {old new s : Text} {c : Char}

theorem replaceFrom_eq_drop (old new : Text) (skip : Nat) (s : Text) :
    replaceFrom old new skip s = replaceAll old new (s.drop skip) := by
  induction s generalizing skip with
  | nil => cases skip <;> simp [replaceAll, replaceFrom]
  | cons c s ih =>
      cases skip with
      | zero => rfl
      | succ skip => exact ih skip

theorem replaceAll_old (h : old ≠ []) (rest : Text) :
    replaceAll old new (old ++ rest) = new ++ replaceAll old new rest := by
  obtain ⟨c, more, rfl⟩ := List.exists_cons_of_ne_nil h
  have hprefix : (c :: more).isPrefixOf (c :: more ++ rest) = true :=
    List.isPrefixOf_iff_prefix.mpr (List.prefix_append ..)
  rw [List.cons_append] at hprefix ⊢
  rw [replaceAll, replaceFrom, if_pos hprefix, replaceFrom_eq_drop]
  simp

theorem replaceAll_cons (h : ¬ old <+: c :: s) :
    replaceAll old new (c :: s) = c :: replaceAll old new s := by
  rw [replaceAll, replaceFrom, if_neg (mt List.isPrefixOf_iff_prefix.mp h)]
  rfl

theorem replace_induction (hne : old ≠ []) {motive : Text → Prop} (nil : motive [])
    (hit : ∀ rest, motive rest → motive (old ++ rest))
    (miss : ∀ c rest, ¬ old <+: c :: rest → motive rest → motive (c :: rest)) (s : Text) :
    motive s := by
  induction hn : s.length using Nat.strongRecOn generalizing s with
  | _ n ih =>
      cases s with
      | nil => exact nil
      | cons c rest =>
          by_cases h : old <+: c :: rest
          · obtain ⟨after, hafter⟩ := h
            have hlength := congrArg List.length hafter
            have hpos := List.length_pos_of_ne_nil hne
            rw [List.length_append, hn] at hlength
            rw [← hafter]
            exact hit after (ih after.length (by omega) after rfl)
          · exact miss c rest h (ih rest.length (by simp [← hn]) rest rfl)

theorem occurs_iff_infix : occurs old s = true ↔ old <:+: s := by
  induction s with
  | nil => simp [occurs]
  | cons c s ih =>
      rw [occurs, Bool.or_eq_true, ih, List.isPrefixOf_iff_prefix, List.infix_cons_iff]

/-- A text in which the part does not occur stays. -/
theorem replaceAll_of_not_infix (h : ¬ old <:+: s) : replaceAll old new s = s := by
  induction s with
  | nil => rfl
  | cons c s ih =>
      rw [List.infix_cons_iff, not_or] at h
      rw [replaceAll_cons h.1, ih h.2]

/-- Nothing is replaced before the first character of the part. -/
theorem replaceAll_append_of_not_mem {a : Text} (hold : old.head? = some c) (h : c ∉ a) (b : Text) :
    replaceAll old new (a ++ b) = a ++ replaceAll old new b := by
  induction a with
  | nil => rfl
  | cons x a ih =>
      obtain ⟨hx, ha⟩ := not_or.mp (mt List.mem_cons.mpr h)
      have hmiss : ¬ old <+: x :: (a ++ b) := by
        rintro ⟨after, hafter⟩
        cases old with
        | nil => contradiction
        | cons y old =>
            cases hold
            exact hx (List.cons.inj hafter).1
      rw [List.cons_append, replaceAll_cons hmiss, ih ha, List.cons_append]

theorem replaceAll_append_cons (hne : old ≠ []) (hc : c ∉ old) (a b : Text) :
    replaceAll old new (a ++ c :: b) = replaceAll old new a ++ c :: replaceAll old new b := by
  induction a using replace_induction hne with
  | nil =>
      refine replaceAll_cons fun h => ?_
      exact hne (List.prefix_nil.mp (prefix_of_prefix_append (a := []) hc h))
  | hit rest ih =>
      rw [List.append_assoc, replaceAll_old hne, ih, replaceAll_old hne, List.append_assoc]
  | miss x rest h ih =>
      have hx : ¬ old <+: x :: (rest ++ c :: b) := fun hp => h (prefix_of_prefix_append hc hp)
      rw [List.cons_append, replaceAll_cons hx, ih, replaceAll_cons h, List.cons_append]

theorem not_mem_replaceAll (hne : old ≠ []) (hc : c ∉ new) (h : c ∉ s) :
    c ∉ replaceAll old new s := by
  induction s using replace_induction hne with
  | nil => exact h
  | hit rest ih =>
      rw [replaceAll_old hne, List.mem_append, not_or]
      exact ⟨hc, ih fun hmem => h (List.mem_append_right _ hmem)⟩
  | miss x rest hx ih =>
      obtain ⟨hne, hrest⟩ := not_or.mp (mt List.mem_cons.mpr h)
      rw [replaceAll_cons hx, List.mem_cons, not_or]
      exact ⟨hne, ih hrest⟩

theorem replaceAll_ne_nil (hne : old ≠ []) (hnew : new ≠ []) (h : s ≠ []) :
    replaceAll old new s ≠ [] := by
  induction s using replace_induction hne with
  | nil => exact h
  | hit rest => simp [replaceAll_old hne, hnew]
  | miss x rest hx => simp [replaceAll_cons hx]

/-- Replacing within lines is replacing in the text. -/
theorem lines_replaceAll (hne : old ≠ []) (hnew : new ≠ []) (hold : '\n' ∉ old)
    (hfeed : '\n' ∉ new) (s : Text) :
    (replaceAll old new s).lines = s.lines.map (replaceAll old new) := by
  induction s using lines_induction with
  | nil => rfl
  | last body hbody hlast =>
      rw [lines_last hbody hlast, lines_last (replaceAll_ne_nil hne hnew hbody)
        (not_mem_replaceAll hne hfeed hlast), List.map_singleton]
  | feed body rest hbody ih =>
      rw [replaceAll_append_cons hne hold, lines_feed (not_mem_replaceAll hne hfeed hbody), ih,
        lines_feed hbody, List.map_cons, replaceAll_append_cons hne hold]
      rfl

/-- A start of the result that lacks the first character of what is put in was there before. -/
theorem prefix_of_prefix_replaceAll (hne : old ≠ []) (hnew : new.head? = some c)
    {a : Text} (hc : c ∉ a) (h : a <+: replaceAll old new s) : a <+: s := by
  induction s using replace_induction hne generalizing a with
  | nil => exact h
  | hit rest =>
      rw [replaceAll_old hne] at h
      cases a with
      | nil => exact List.nil_prefix
      | cons x a =>
          obtain ⟨more, rfl⟩ := List.head?_eq_some_iff.mp hnew
          obtain ⟨hx, -⟩ := List.cons_prefix_cons.mp h
          exact absurd (List.mem_cons.mpr (.inl hx.symm)) hc
  | miss y rest hy ih =>
      rw [replaceAll_cons hy] at h
      cases a with
      | nil => exact List.nil_prefix
      | cons x a =>
          obtain ⟨hx, ha⟩ := List.cons_prefix_cons.mp h
          exact List.cons_prefix_cons.mpr ⟨hx, ih (fun hmem => hc (List.mem_cons_of_mem _ hmem)) ha⟩

/-- A replacement is undone by its reverse if the new part does not occur and starts with a
character that is not in the rest of it. Then it does not occur across the edges of what is put in
either. -/
theorem replaceAll_replaceAll (hne : old ≠ []) {tail : Text} (hc : c ∉ tail)
    (h : ¬ c :: tail <:+: s) :
    replaceAll (c :: tail) old (replaceAll old (c :: tail) s) = s := by
  induction s using replace_induction hne with
  | nil => rfl
  | hit rest ih =>
      rw [replaceAll_old hne, replaceAll_old (List.cons_ne_nil _ _)]
      rw [ih fun hrest => h (hrest.trans (List.suffix_append old rest).isInfix)]
  | miss x rest hx ih =>
      have hnone : ¬ c :: tail <+: x :: replaceAll old (c :: tail) rest := by
        intro hstarts
        obtain ⟨hcx, htail⟩ := List.cons_prefix_cons.mp hstarts
        have hrest := prefix_of_prefix_replaceAll hne rfl hc htail
        exact h (List.cons_prefix_cons.mpr ⟨hcx, hrest⟩).isInfix
      rw [replaceAll_cons hx, replaceAll_cons hnone]
      rw [ih fun hrest => h (hrest.trans (List.suffix_cons x rest).isInfix)]

end Text
end Shorthand
