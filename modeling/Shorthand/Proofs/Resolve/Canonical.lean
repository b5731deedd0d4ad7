import Shorthand.Proofs.Expansion
import Shorthand.Resolve

/-!
Wrapper shorthands and their canonical targets resolve alike, in every mode and with every label.
-/

namespace Shorthand

theorem Wrapper.trimmed_wrap (w : Wrapper) (payload : Text) :
    (w.wrap payload).trimmed = w.wrap payload := by
  apply Text.trimmed_eq_self
  · intro c hc
    cases w <;> cases hc <;> decide
  · intro c hc
    rw [wrap, ← List.cons_append, List.getLast?_concat] at hc
    cases w <;> cases hc <;> decide

/-- White space can only stand at the end of a target that starts with a name. -/
theorem Namespace.IsName.trimmed {ns : Text} (h : IsName ns) {payload : Text}
    (hlast : ∀ c, payload.getLast? = some c → Text.isBlank c = false) :
    (ns ++ ':' :: payload).trimmed = ns ++ ':' :: payload := by
  apply Text.trimmed_eq_self
  · intro c hc
    obtain ⟨x, more, rfl⟩ := List.exists_cons_of_ne_nil h.1
    cases hc
    exact isBlank_of_isNameChar (h.2 _ List.mem_cons_self)
  · intro c hc
    cases payload with
    | nil =>
        rw [List.getLast?_concat] at hc
        cases hc
        decide
    | cons x payload =>
        apply hlast
        rw [← hc]
        simp [List.getLast?_cons]

namespace Resolver

/-- Only the expanded form of a target matters. -/
theorem resolve_congr {r : Resolver} {a b label : Text} (ha : a.trimmed ≠ []) (hb : b.trimmed ≠ [])
    (h : r.table.expandTarget r.options a.trimmed label =
      r.table.expandTarget r.options b.trimmed label) (source : Option Path) (mode : Mode) :
    r.resolve ⟨a, label, source, mode⟩ = r.resolve ⟨b, label, source, mode⟩ := by
  simp only [resolve, if_neg ha, if_neg hb, h]

theorem resolve_wrap_eq_resolve_name (r : Resolver) (ht : r.table.WellFormed) {w : Wrapper}
    {ns : Text} (hw : r.table.wrapperNamespace? w = some ns) (source : Option Path) (mode : Mode)
    {payload canonical label : Text}
    (hlast : ∀ c, canonical.getLast? = some c → Text.isBlank c = false)
    (h : r.table.expandTarget r.options (w.wrap payload) label =
      r.table.expandTarget r.options (ns ++ ':' :: canonical) label) :
    r.resolve ⟨w.wrap payload, label, source, mode⟩ =
      r.resolve ⟨ns ++ ':' :: canonical, label, source, mode⟩ := by
  have hname := (ht.isName (ht.registered hw)).trimmed hlast
  apply resolve_congr
  · rw [w.trimmed_wrap]
    exact List.cons_ne_nil _ _
  · rw [hname]
    simp
  · rw [w.trimmed_wrap, hname, h]

/-- A wrapper shorthand means its canonical form: `[]` is `ns:`, `[.]` is `ns:./:`, `[!]` is `ns:!:`
and any other `[X]` is `ns:X`, where `ns` is the namespace of the wrapper. White space at the
end of `ns:X` would be trimmed, while `X` keeps it inside its wrapper. -/
theorem wrapper_means_canonical_form {t : NamespaceTable} (ht : t.Reachable) {w : Wrapper}
    {ns : Text} (hw : t.wrapperNamespace? w = some ns) (options : Options)
    (workspaces : Workspaces) (label : Text) (source : Option Path) (mode : Mode) :
    let expanded (target : Text) := t.expandTarget options target label
    let resolved (target : Text) :=
      (⟨t, options, workspaces⟩ : Resolver).resolve ⟨target, label, source, mode⟩
    (expanded (w.wrap []) = expanded (ns ++ [':']) ∧
        resolved (w.wrap []) = resolved (ns ++ [':'])) ∧
      (expanded (w.wrap ['.']) = expanded (ns ++ [':', '.', '/', ':']) ∧
        resolved (w.wrap ['.']) = resolved (ns ++ [':', '.', '/', ':'])) ∧
      (expanded (w.wrap ['!']) = expanded (ns ++ [':', '!', ':']) ∧
        resolved (w.wrap ['!']) = resolved (ns ++ [':', '!', ':'])) ∧
      ∀ payload, payload ≠ [] → payload ≠ ['.'] → payload ≠ ['!'] →
        expanded (w.wrap payload) = expanded (ns ++ ':' :: payload) ∧
          ((∀ c, payload.getLast? = some c → Text.isBlank c = false) →
            resolved (w.wrap payload) = resolved (ns ++ ':' :: payload)) := by
  intro expanded resolved
  have hwf := ht.wellFormed
  have hname := hwf.isName (hwf.registered hw)
  have hnil : expanded (w.wrap []) = expanded (ns ++ [':']) :=
    (NamespaceTable.expandTarget_wrap_nil hwf hw options label).trans
      (NamespaceTable.expandTarget_name_colon hwf (hwf.registered hw) options label).symm
  have hdot : expanded (w.wrap ['.']) = expanded (ns ++ [':', '.', '/', ':']) := by
    apply NamespaceTable.expandTarget_congr
    rw [NamespaceTable.expand_wrap_dot hw, NamespaceTable.expand_name t hname]
  have hbang : expanded (w.wrap ['!']) = expanded (ns ++ [':', '!', ':']) := by
    apply NamespaceTable.expandTarget_congr
    rw [NamespaceTable.expand_wrap_bang hw, NamespaceTable.expand_name t hname]
  have hpayload (payload : Text) (h₁ : payload ≠ []) (h₂ : payload ≠ ['.']) (h₃ : payload ≠ ['!']) :
      expanded (w.wrap payload) = expanded (ns ++ ':' :: payload) := by
    apply NamespaceTable.expandTarget_congr
    rw [NamespaceTable.expand_wrap hw h₁ h₂ h₃, NamespaceTable.expand_name t hname]
  have alike (payload canonical : Text)
      (hlast : ∀ c, canonical.getLast? = some c → Text.isBlank c = false)
      (h : expanded (w.wrap payload) = expanded (ns ++ ':' :: canonical)) :
      resolved (w.wrap payload) = resolved (ns ++ ':' :: canonical) :=
    resolve_wrap_eq_resolve_name ⟨t, options, workspaces⟩ hwf hw source mode hlast h
  refine ⟨⟨hnil, ?_⟩, ⟨hdot, ?_⟩, ⟨hbang, ?_⟩, fun payload h₁ h₂ h₃ => ⟨?_, fun hlast => ?_⟩⟩
  · exact alike [] [] (by simp) hnil
  · exact alike ['.'] ['.', '/', ':'] (fun c hc => by cases hc; decide) hdot
  · exact alike ['!'] ['!', ':'] (fun c hc => by cases hc; decide) hbang
  · exact hpayload payload h₁ h₂ h₃
  · exact alike payload payload hlast (hpayload payload h₁ h₂ h₃)

/-- Parentheses that a configuration points at `docs` put a label with a colon there. -/
theorem remapped_parens_mean_docs :
    let t : NamespaceTable :=
      { roots := [("blocks", "src/cavalion-blocks"), ("comps", "src/vcl-comps"), ("docs", "book/")]
        brackets := some "blocks"
        parens := some "docs" }
    let resolved (target : Text) := (⟨t, {}, .ofFolders [⟨"/ws"⟩]⟩ : Resolver).resolve
      ⟨target, "a:b", some ⟨"/ws/page.md"⟩, .location⟩
    t.Reachable ∧ t.wrapperNamespace? .parens = some "docs" ∧
      resolved "()" = resolved "docs:" ∧ resolved "(:)" = resolved "docs::" ∧
      resolved "()" = .location ⟨"/ws/book/a:b"⟩ := by
  intro t resolved
  let before : NamespaceTable := { t with parens := some "comps" }
  have hinsert : NamespaceTable.default.insert "docs" "book/" = .ok before := rfl
  have hset : before.setWrapper .parens "docs" = .ok t := rfl
  have ht : t.Reachable := .setWrapper (.insert .default hinsert) hset
  have hw : t.wrapperNamespace? .parens = some "docs" := rfl
  obtain ⟨⟨-, hnil⟩, -, -, hpayload⟩ := wrapper_means_canonical_form ht hw {}
    (.ofFolders [⟨"/ws"⟩]) "a:b" (some ⟨"/ws/page.md"⟩) .location
  have hcolon := hpayload [':'] (by decide) (by decide) (by decide)
  exact ⟨ht, hw, hnil, hcolon.2 (fun c hc => by cases hc; decide), by decide⟩

end Resolver
end Shorthand
