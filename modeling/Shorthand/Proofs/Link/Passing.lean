import Shorthand.Proofs.Link.Grammar

/-!
The recognizer of targets on its way. It goes over a text and on from there, inside a parenthesis or
outside, or it comes to its result within the text and what follows does not matter.
-/

namespace Shorthand
namespace Link

variable {i j k : Bool} {a b t : Text} {l : Link}

/-- The recognizer of targets goes on after a text, inside a parenthesis or outside. -/
def Passes (i : Bool) (a : Text) (j : Bool) : Prop :=
  ∀ s, target? i (a ++ s) = (target? j s).map (a ++ ·)

/-- The recognizer of targets comes to its result within a text. -/
def Settles (i : Bool) (a : Text) : Prop :=
  ∀ s s', target? i (a ++ s) = target? i (a ++ s')

theorem Passes.nil (i : Bool) : Passes i [] i :=
  fun _ => Option.map_id'.symm

theorem Passes.append (ha : Passes i a j) (hb : Passes j b k) : Passes i (a ++ b) k := by
  intro s
  rw [List.append_assoc, ha, hb, Option.map_map]
  exact congrArg (Option.map · _) (funext fun t => (List.append_assoc a b t).symm)

theorem Passes.eq_none_iff (h : Passes i a j) (s : Text) :
    target? i (a ++ s) = none ↔ target? j s = none := by
  rw [h, Option.map_eq_none_iff]

theorem passes_plain (ha : ∀ c ∈ a, IsPlain c) (i : Bool) : Passes i a i :=
  target?_plain_append ha i

theorem passes_open : Passes false ['('] true :=
  target?_open

theorem passes_close : Passes true [')'] false :=
  target?_close

theorem passes_or_settles_char (i : Bool) (c : Char) : (∃ j, Passes i [c] j) ∨ Settles i [c] := by
  by_cases hplain : IsPlain c
  · exact .inl ⟨i, passes_plain (List.forall_mem_singleton.mpr hplain) i⟩
  · by_cases hblank : Text.isBlank c = true
    · exact .inr fun s s' => (target?_blank hblank i s).trans (target?_blank hblank i s').symm
    · have hparen : c = '(' ∨ c = ')' := by
        simp only [IsPlain, Bool.not_eq_true] at hplain hblank
        tauto
      rcases hparen with rfl | rfl <;> cases i
      · exact .inl ⟨true, passes_open⟩
      · exact .inr fun _ _ => rfl
      · exact .inr fun _ _ => rfl
      · exact .inl ⟨false, passes_close⟩

theorem passes_or_settles (i : Bool) (a : Text) : (∃ j, Passes i a j) ∨ Settles i a := by
  induction a generalizing i with
  | nil => exact .inl ⟨i, .nil i⟩
  | cons c a ih =>
      rcases passes_or_settles_char i c with ⟨j, hc⟩ | hc
      · rcases ih j with ⟨k, ha⟩ | ha
        · exact .inl ⟨k, hc.append ha⟩
        · exact .inr fun s s' => (hc _).trans ((congrArg _ (ha s s')).trans (hc _).symm)
      · exact .inr fun s s' => hc (a ++ s) (a ++ s')

/-- A target is what is passed from outside parentheses to outside parentheses. -/
theorem isTarget_iff_passes : IsTarget a ↔ Passes false a false := by
  constructor
  · intro h
    induction h with
    | nil => exact .nil false
    | plain hc _ ih => exact (passes_plain (List.forall_mem_singleton.mpr hc) false).append ih
    | @group g rest hg _ ih =>
        have hgroup := passes_open.append ((passes_plain hg true).append (passes_close.append ih))
        simpa using hgroup
  · intro h
    have hread := h [')']
    simp only [target?, if_true, Option.map_some, List.append_nil] at hread
    exact (isTarget_of_target? hread).1

theorem IsTarget.isPlain_of_not_mem (h : IsTarget t) (hopen : '(' ∉ t) : ∀ c ∈ t, IsPlain c := by
  induction h with
  | nil => nofun
  | plain hc _ ih => exact List.forall_mem_cons.mpr ⟨hc, ih (mt (List.mem_cons_of_mem _) hopen)⟩
  | group _ _ _ => exact absurd List.mem_cons_self hopen

theorem IsTarget.not_mem_of_isBlank (h : IsTarget t) {c : Char} (hc : Text.isBlank c = true) :
    c ∉ t := by
  have hplain : ¬ IsPlain c := fun h => by simp [h.2.2] at hc
  have hopen : c ≠ '(' := by rintro rfl; contradiction
  have hclose : c ≠ ')' := by rintro rfl; contradiction
  induction h with
  | nil => nofun
  | plain hd _ ih => exact mt List.mem_cons.mp (not_or.mpr ⟨fun h => hplain (h ▸ hd), ih⟩)
  | @group g rest hg _ ih =>
      have hgroup : c ∉ g := fun h => hplain (hg c h)
      simp [hopen, hclose, hgroup, ih]

/-- Parentheses do not nest. -/
theorem IsTarget.target?_inside (h : IsTarget t) (hopen : '(' ∈ t) (s : Text) :
    target? true (t ++ s) = none := by
  induction h with
  | nil => contradiction
  | plain hc _ ih =>
      have hrest := (List.mem_cons.mp hopen).resolve_left (Ne.symm hc.1)
      rw [List.cons_append, target?_plain hc, ih hrest, Option.map_none]
  | group _ _ _ => rfl

/-- A link up to its target. -/
def head (l : Link) : Text :=
  '[' :: (l.label ++ [']'])

theorem written_eq_head (l : Link) : l.written = l.head ++ (['('] ++ (l.target ++ [')'])) := by
  simp [written, head]

theorem IsTarget.passes_group (h : IsTarget t) (hopen : '(' ∉ t) :
    Passes false (['('] ++ (t ++ [')'])) false :=
  passes_open.append ((passes_plain (h.isPlain_of_not_mem hopen) true).append passes_close)

theorem Passes.written (h : Passes i l.head false) (ht : IsTarget l.target)
    (hopen : '(' ∉ l.target) : Passes i l.written false := by
  rw [written_eq_head]
  exact h.append (ht.passes_group hopen)

theorem Settles.written (h : Settles i l.head) {l' : Link} (hhead : l'.head = l.head)
    (s s' : Text) : target? i (l'.written ++ s') = target? i (l.written ++ s) := by
  simp only [written_eq_head, hhead, List.append_assoc]
  exact h _ _

theorem Passes.target?_written (h : Passes i l.head j) (ht : IsTarget l.target)
    (hopen : j = true ∨ '(' ∈ l.target) (s : Text) : target? i (l.written ++ s) = none := by
  rw [written_eq_head, List.append_assoc, h.eq_none_iff]
  cases j with
  | true => rfl
  | false =>
      rw [List.append_assoc, passes_open.eq_none_iff, List.append_assoc]
      exact ht.target?_inside (hopen.resolve_left nofun) _

end Link
end Shorthand
