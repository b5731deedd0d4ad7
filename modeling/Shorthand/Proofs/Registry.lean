import Mathlib.Data.Char
import Mathlib.Data.List.Lex
import Mathlib.Data.List.Nodup
import Mathlib.Data.List.Perm.Basic
import Shorthand.Proofs.Namespace.Table

/-!
Registries that are filled from lists of names and values without a name twice. Such a registry
holds the list in another order, that of the names, and so it is determined by what is found in it.
-/

namespace Shorthand

theorem Text.before_iff {a b : Text} : a.before b = true ↔ a < b := by
  rw [Text.before, List.lex_eq_true_iff_lex]
  simp only [decide_eq_true_eq]
  rfl

namespace Registry

variable {name value : Text} {r r' pairs : Registry}

def names (r : Registry) : List Text :=
  r.map (·.1)

/-- A later pair replaces an earlier one of its name. -/
def putAll (pairs : List (Text × Text)) (r : Registry) : Registry :=
  pairs.foldl (fun r p => r.put p.1 p.2) r

def without (name : Text) (r : Registry) : Registry :=
  r.filter fun p => p.1 ≠ name

/-- The values that are `old` become `new`. -/
def moveValues (old new : Text) (r : Registry) : Registry :=
  r.map fun p => if p.2 = old then (p.1, new) else p

theorem get?_eq_none_iff : r.get? name = none ↔ name ∉ r.names := by
  induction r with
  | nil => simp [get?, names]
  | cons p r ih =>
      rw [get?, names, List.map_cons, List.mem_cons, not_or]
      split
      · rename_i h
        simp [h]
      · rename_i h
        rw [ih]
        simp [names, Ne.symm h]

theorem has_iff_mem_names : r.has name = true ↔ name ∈ r.names := by
  rw [has, Option.isSome_iff_ne_none, ne_eq, get?_eq_none_iff, not_not]

theorem mem_of_get? (h : r.get? name = some value) : (name, value) ∈ r := by
  induction r with
  | nil => contradiction
  | cons p r ih =>
      rw [get?] at h
      split at h
      · rename_i hname
        cases h
        rw [← hname]
        exact List.mem_cons_self
      · exact List.mem_cons_of_mem _ (ih h)

theorem get?_eq_some_iff (h : r.names.Nodup) : r.get? name = some value ↔ (name, value) ∈ r := by
  refine ⟨mem_of_get?, fun hmem => ?_⟩
  induction r with
  | nil => contradiction
  | cons p r ih =>
      obtain ⟨hp, hr⟩ := List.nodup_cons.mp h
      rw [get?]
      rcases List.mem_cons.mp hmem with rfl | hmem
      · rw [if_pos rfl]
      · have hname : p.1 ≠ name := fun hname => hp (List.mem_map.mpr ⟨_, hmem, hname.symm⟩)
        rw [if_neg hname, ih hr hmem]

theorem get?_of_perm (h : r.Perm r') (hnames : r'.names.Nodup) : r.get? name = r'.get? name := by
  have hnames' : r.names.Nodup := (h.map _).nodup_iff.mpr hnames
  refine Option.ext fun value => ?_
  rw [get?_eq_some_iff hnames', get?_eq_some_iff hnames, h.mem_iff]

theorem put_perm (h : name ∉ r.names) : (r.put name value).Perm ((name, value) :: r) := by
  induction r with
  | nil => exact .refl _
  | cons p r ih =>
      rw [names, List.map_cons, List.mem_cons, not_or] at h
      rw [put, if_neg (Ne.symm h.1)]
      split
      · exact .refl _
      · exact ((ih h.2).cons p).trans (.swap ..)

theorem names_append (r r' : Registry) : Registry.names (r ++ r') = r.names ++ r'.names :=
  List.map_append

theorem names_nodup_append (h : r.names.Nodup) (hname : name ∉ r.names) :
    (Registry.names (r ++ [(name, value)])).Nodup := by
  rw [names_append]
  refine List.nodup_append.mpr ⟨h, List.nodup_singleton _, ?_⟩
  rintro n hn _ hnew rfl
  obtain rfl : n = name := List.mem_singleton.mp hnew
  exact hname hn

theorem names_without (name : Text) (r : Registry) :
    (r.without name).names = r.names.filter (· ≠ name) := by
  rw [names, names, without, List.filter_map]
  rfl

theorem names_without_nodup (h : r.names.Nodup) : (r.without name).names.Nodup := by
  rw [names_without]
  exact h.filter _

theorem get?_append (r r' : Registry) (name : Text) :
    Registry.get? name (r ++ r') = (r.get? name).or (r'.get? name) := by
  induction r with
  | nil => rfl
  | cons p r ih =>
      rw [List.cons_append, get?, get?, ih]
      split <;> rfl

theorem get?_without {n : Text} (h : n ≠ name) (r : Registry) :
    (r.without name).get? n = r.get? n := by
  induction r with
  | nil => rfl
  | cons p r ih =>
      rw [without, List.filter_cons, get?, ← without]
      by_cases hp : p.1 = name
      · simpa [hp, Ne.symm h] using ih
      · simp only [hp, ne_eq, not_false_eq_true, decide_true, if_true, get?, ih]

theorem get?_without_self (name : Text) (r : Registry) : (r.without name).get? name = none := by
  rw [get?_eq_none_iff, names_without, List.mem_filter]
  simp

theorem names_moveValues (old new : Text) (r : Registry) :
    (r.moveValues old new).names = r.names := by
  rw [names, names, moveValues, List.map_map]
  refine List.map_congr_left fun p _ => ?_
  rw [Function.comp_apply]
  split <;> rfl

theorem get?_moveValues (old new : Text) (r : Registry) (name : Text) :
    (r.moveValues old new).get? name =
      (r.get? name).map fun value => if value = old then new else value := by
  induction r with
  | nil => rfl
  | cons p r ih =>
      rw [moveValues, List.map_cons, ← moveValues, get?, get?, ih]
      by_cases hold : p.2 = old
      · rw [if_pos hold]
        split
        · rw [Option.map_some, if_pos hold]
        · rfl
      · rw [if_neg hold]
        split
        · rw [Option.map_some, if_neg hold]
        · rfl

theorem putAll_perm (h : (r.names ++ pairs.names).Nodup) : (putAll pairs r).Perm (r ++ pairs) := by
  induction pairs generalizing r with
  | nil => exact .of_eq (List.append_nil r).symm
  | cons p pairs ih =>
      have hp : p.1 ∉ r.names := fun hmem =>
        (List.nodup_append.mp h).2.2 _ hmem _ List.mem_cons_self rfl
      have hmove : ((r.put p.1 p.2) ++ pairs).Perm (r ++ p :: pairs) :=
        ((put_perm hp).append_right pairs).trans List.perm_middle.symm
      refine (ih ?_).trans hmove
      rw [← names_append] at h ⊢
      exact (hmove.map _).nodup_iff.mpr h

/-- What is put last counts. -/
theorem get?_putAll (h : pairs.names.Nodup) :
    (putAll pairs r).get? name = (pairs.get? name).or (r.get? name) := by
  induction pairs generalizing r with
  | nil => rfl
  | cons p pairs ih =>
      obtain ⟨hp, hpairs⟩ := List.nodup_cons.mp h
      rw [putAll, List.foldl_cons, ← putAll, ih hpairs, get?_put, get?]
      by_cases hname : p.1 = name
      · rw [if_pos hname, if_pos hname.symm, ← hname, get?_eq_none_iff.mpr hp]
        rfl
      · rw [if_neg hname, if_neg (Ne.symm hname)]

theorem has_putAll (h : pairs.names.Nodup) :
    (putAll pairs r).has name = true ↔ name ∈ pairs.names ∨ name ∈ r.names := by
  rw [has, get?_putAll h, Option.isSome_or, Bool.or_eq_true, ← has, ← has, has_iff_mem_names,
    has_iff_mem_names]

/-- Each name comes before those that follow it. -/
def Ordered (r : Registry) : Prop :=
  r.Pairwise fun p q => p.1 < q.1

instance (r : Registry) : Decidable r.Ordered :=
  inferInstanceAs (Decidable (List.Pairwise _ _))

theorem mem_put {p : Text × Text} (h : p ∈ r.put name value) : p.1 = name ∨ p ∈ r := by
  induction r with
  | nil => exact .inl (congrArg Prod.fst (List.mem_singleton.mp h))
  | cons q r ih =>
      rw [put] at h
      split at h
      · rcases List.mem_cons.mp h with rfl | h
        · exact .inl rfl
        · exact .inr (List.mem_cons_of_mem _ h)
      · split at h
        · rcases List.mem_cons.mp h with rfl | h
          · exact .inl rfl
          · exact .inr h
        · rcases List.mem_cons.mp h with rfl | h
          · exact .inr List.mem_cons_self
          · exact (ih h).imp_right (List.mem_cons_of_mem _)

theorem Ordered.put (h : r.Ordered) (name value : Text) : (r.put name value).Ordered := by
  induction r with
  | nil => exact List.pairwise_singleton ..
  | cons p r ih =>
      obtain ⟨hp, hr⟩ := List.pairwise_cons.mp h
      rw [Registry.put]
      split
      · rename_i heq
        exact List.pairwise_cons.mpr ⟨fun q hq => heq ▸ hp q hq, hr⟩
      · rename_i hne
        split
        · rename_i hbefore
          have hbefore := Text.before_iff.mp hbefore
          refine List.pairwise_cons.mpr ⟨fun q hq => ?_, h⟩
          rcases List.mem_cons.mp hq with rfl | hq
          · exact hbefore
          · exact hbefore.trans (hp q hq)
        · rename_i hafter
          have hafter := lt_of_le_of_ne (not_lt.mp (mt Text.before_iff.mpr hafter)) hne
          refine List.pairwise_cons.mpr ⟨fun q hq => ?_, ih hr⟩
          rcases mem_put hq with hq | hq
          · rw [hq]
            exact hafter
          · exact hp q hq

theorem Ordered.putAll (h : r.Ordered) (pairs : List (Text × Text)) : (putAll pairs r).Ordered := by
  induction pairs generalizing r with
  | nil => exact h
  | cons p pairs ih => exact ih (h.put p.1 p.2)

theorem Ordered.names_nodup (h : r.Ordered) : r.names.Nodup :=
  List.pairwise_map.mpr (h.imp ne_of_lt)

theorem Ordered.ext (h : r.Ordered) (h' : r'.Ordered) (hget : ∀ name, r.get? name = r'.get? name) :
    r = r' := by
  have hmem : ∀ p, p ∈ r ↔ p ∈ r' := by
    intro p
    rw [← get?_eq_some_iff h.names_nodup, ← get?_eq_some_iff h'.names_nodup, hget]
  have hperm :=
    (List.perm_ext_iff_of_nodup (h.names_nodup.of_map _) (h'.names_nodup.of_map _)).mpr hmem
  exact hperm.eq_of_pairwise (fun p q _ _ hpq hqp => absurd hpq hqp.asymm) h h'

end Registry
end Shorthand
