import Shorthand.Proofs.Config.Edit
import Shorthand.Proofs.Resolve.Footprint

/-!
The table of a configuration after a namespace has been removed. The namespace keeps the root that
is built in, if there is one, and nothing else changes.
-/

namespace Shorthand

namespace Settings

variable {s : Settings} {d : Toml.Document} {name : Text}

namespace Describes

theorem root?_removed (h : s.Describes d) (name n : Text) :
    (s.removed d name).config.table.root? n =
      if n = name then NamespaceTable.default.root? n else s.config.table.root? n := by
  rw [root?_registryOf rfl (Registry.names_without_nodup (h.textsOf_names_nodup _)), h.root?_eq]
  split
  · rename_i heq
    rw [heq, Registry.get?_without_self, Option.none_or]
  · rename_i hne
    rw [Registry.get?_without hne]

theorem root?_removed_self (h : s.Describes d) (name : Text) :
    (s.removed d name).config.table.root? name = NamespaceTable.default.root? name :=
  (h.root?_removed name name).trans (if_pos rfl)

theorem root?_removed_other (h : s.Describes d) {n : Text} (hn : n ≠ name) :
    (s.removed d name).config.table.root? n = s.config.table.root? n :=
  (h.root?_removed name n).trans (if_neg hn)

theorem isName_of_mem (h : s.Describes d) (hs : s.IsConsistent)
    (hmem : name ∈ Registry.names (textsOf d "namespaces")) : Namespace.IsName name := by
  obtain ⟨p, hp, rfl⟩ := List.mem_map.mp hmem
  exact ((isConsistent_iff h.namespaces_eq (h.textsOf_names_nodup _)).mp hs).1 p hp

theorem sameApartFromRoots_removed (s : Settings) (d : Toml.Document) (name : Text) :
    s.config.table.SameApartFromRoots (s.removed d name).config.table where
  wrapperNamespace? w := by cases w <;> rfl
  rootDefault := rfl

/-- A namespace may go if it is built in or no wrapper stands for it. -/
theorem isConsistent_removed (h : s.Describes d) (hs : s.IsConsistent) (name : Text) :
    (s.removed d name).IsConsistent ↔ Namespace.isBuiltin name = true ∨
      ∀ w, s.config.table.wrapperNamespace? w ≠ some name := by
  have hnames := h.textsOf_names_nodup "namespaces"
  obtain ⟨hisName, hisWrapper, hregistered⟩ := (isConsistent_iff h.namespaces_eq hnames).mp hs
  have hkept (p) (hp : p ∈ s.wrappers) : (p.2 ∈ Registry.names
      (Registry.without name (textsOf d "namespaces")) ∨ Namespace.isBuiltin p.2 = true) ↔
        (p.2 = name → Namespace.isBuiltin name = true) := by
    rw [Registry.names_without, List.mem_filter, decide_eq_true_eq]
    have := hregistered p hp
    by_cases hpname : p.2 = name
    · simp [hpname]
    · simpa [hpname] using this
  rw [isConsistent_iff rfl (Registry.names_without_nodup hnames)]
  constructor
  · rintro ⟨-, -, hafter⟩
    cases hbuiltin : Namespace.isBuiltin name with
    | true => exact .inl rfl
    | false =>
        refine .inr fun w hw => ?_
        have hmem := (wrapperNamespace?_table h hbuiltin).mp hw
        have := (hkept _ hmem).mp (hafter _ hmem) rfl
        rw [hbuiltin] at this
        contradiction
  · intro hsafe
    refine ⟨fun p hp => hisName p (List.mem_filter.mp hp).1, hisWrapper,
      fun p hp => (hkept p hp).mpr ?_⟩
    rintro rfl
    cases hbuiltin : Namespace.isBuiltin p.2 with
    | true => rfl
    | false =>
        obtain ⟨w, hw⟩ := hisWrapper p hp
        rw [hbuiltin] at hsafe
        exact absurd ((wrapperNamespace?_table h hbuiltin).mpr (hw ▸ hp))
          (hsafe.resolve_left Bool.false_ne_true w)

end Describes
end Settings
end Shorthand
