import Shorthand.Namespace.Table
import Shorthand.Proofs.Namespace.Name

/-!
The tables that a program can build. Every registered name is a valid one and every mapped
wrapper family names a registered namespace, whatever the calls were and in which order.
-/

namespace Shorthand

namespace Registry

theorem get?_put (name value : Text) (r : Registry) (n : Text) :
    (r.put name value).get? n = if n = name then some value else r.get? n := by
  induction r with
  | nil => simp [put, get?, eq_comm]
  | cons entry rest ih =>
      obtain ⟨m, old⟩ := entry
      by_cases hm : m = name
      · subst hm
        simp only [put, if_true, get?, eq_comm (a := n)]
        split <;> rfl
      · simp only [put, if_neg hm]
        split
        · simp only [get?, eq_comm (a := n)]
        · simp only [get?, ih]
          split
          · rename_i hn
            subst hn
            rw [if_neg hm]
          · rfl

theorem has_put {name value n : Text} {r : Registry} :
    (r.put name value).has n = true ↔ n = name ∨ r.has n = true := by
  simp only [has, get?_put]
  split <;> simp_all

end Registry

/-- No delimiter of a wrapper is part of a name. -/
theorem Wrapper.isNameChar_opener (w : Wrapper) : Namespace.isNameChar w.opener = false := by
  cases w <;> decide

theorem Wrapper.isNameChar_closer (w : Wrapper) : Namespace.isNameChar w.closer = false := by
  cases w <;> decide

namespace NamespaceTable

/-- The tables that calls which succeed make of the two tables to start from. -/
inductive Reachable : NamespaceTable → Prop
  | default : Reachable default
  | empty : Reachable empty
  | insert {t t' : NamespaceTable} {name root : Text} :
      Reachable t → t.insert name root = .ok t' → Reachable t'
  | setWrapper {t t' : NamespaceTable} {w : Wrapper} {name : Text} :
      Reachable t → t.setWrapper w name = .ok t' → Reachable t'
  | withRootDefault {t : NamespaceTable} (root : Text) :
      Reachable t → Reachable (t.withRootDefault root)

/-- Names are valid, and wrappers stand for registered namespaces. -/
structure WellFormed (t : NamespaceTable) : Prop where
  isName : ∀ {name}, t.roots.has name = true → Namespace.IsName name
  registered : ∀ {w name}, t.wrapperNamespace? w = some name → t.roots.has name = true

theorem WellFormed.not_has_opener {t : NamespaceTable} (h : t.WellFormed) (w : Wrapper) :
    ¬ t.roots.has [w.opener] = true :=
  fun hn => (h.isName hn).not_mem w.isNameChar_opener List.mem_cons_self

theorem wellFormed_empty : empty.WellFormed where
  isName h := by contradiction
  registered {w _} h := by cases w <;> contradiction

theorem WellFormed.insert {t t' : NamespaceTable} {name root : Text} (h : t.WellFormed)
    (he : t.insert name root = .ok t') : t'.WellFormed := by
  unfold NamespaceTable.insert at he
  split at he
  · contradiction
  · rename_i hfault
    cases he
    have hname := Namespace.nameFault?_eq_none_iff.mp hfault
    refine ⟨fun {n} hn => ?_, fun {w n} hw => Registry.has_put.mpr (.inr ?_)⟩
    · rcases Registry.has_put.mp hn with rfl | hn
      · exact hname
      · exact h.isName hn
    · exact h.registered (w := w) (by cases w <;> exact hw)

theorem WellFormed.setWrapper {t t' : NamespaceTable} {w : Wrapper} {name : Text}
    (h : t.WellFormed) (he : t.setWrapper w name = .ok t') : t'.WellFormed := by
  unfold NamespaceTable.setWrapper at he
  split at he
  · rename_i hname
    cases w <;> cases he
    · refine ⟨h.isName, fun {w' n} hw => ?_⟩
      cases w' with
      | brackets => cases hw; exact hname
      | parens => exact h.registered (w := .parens) hw
    · refine ⟨h.isName, fun {w' n} hw => ?_⟩
      cases w' with
      | brackets => exact h.registered (w := .brackets) hw
      | parens => cases hw; exact hname
  · contradiction

theorem WellFormed.withRootDefault {t : NamespaceTable} (h : t.WellFormed) (root : Text) :
    (t.withRootDefault root).WellFormed :=
  ⟨h.isName, fun {w _} hw => h.registered (w := w) (by cases w <;> exact hw)⟩

/-- The table to start from is itself made by calls on the empty one. -/
theorem wellFormed_default : default.WellFormed := by
  have hblocks := wellFormed_empty.insert
    (show empty.insert "blocks" "src/cavalion-blocks" = .ok _ from rfl)
  have hcomps := hblocks.insert (show insert _ "comps" "src/vcl-comps" = .ok _ from rfl)
  have hbrackets := hcomps.setWrapper (show setWrapper _ .brackets "blocks" = .ok _ from rfl)
  exact hbrackets.setWrapper (show setWrapper _ .parens "comps" = .ok _ from rfl)

theorem Reachable.wellFormed {t : NamespaceTable} (h : t.Reachable) : t.WellFormed := by
  induction h with
  | default => exact wellFormed_default
  | empty => exact wellFormed_empty
  | insert _ he ih => exact ih.insert he
  | setWrapper _ he ih => exact ih.setWrapper he
  | withRootDefault root _ ih => exact ih.withRootDefault root

end NamespaceTable
end Shorthand
