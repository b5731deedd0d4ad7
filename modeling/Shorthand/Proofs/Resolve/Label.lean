import Shorthand.Proofs.Expansion
import Shorthand.Proofs.Placeholder
import Shorthand.Proofs.Resolve.Location

/-!
What a label can do to its link. It is put in verbatim, at a place in whose choice it has no part;
and unless it brings a colon or a slash, it makes neither a URL nor a link in a namespace out of
another.
-/

namespace Shorthand

namespace NamespaceTable

variable {t : NamespaceTable}

/-- A label in the namespace of a wrapper stands behind the name, or between the delimiters if there
is no name. -/
theorem exists_inWrapper (t : NamespaceTable) (w : Wrapper) :
    ∃ before after, ∀ label, t.inWrapper w label (w.wrap label) = before ++ label ++ after := by
  unfold inWrapper
  split
  · rename_i name _
    exact ⟨name ++ [':'], [], fun label => by simp⟩
  · exact ⟨[w.opener], [w.closer], fun label => rfl⟩

/-- The canonical form of a target is the same for all labels, or it is every label between the same
two texts. What the label says does not matter: its colons, delimiters and names are not looked at.
-/
theorem label_stands_verbatim (t : NamespaceTable) (options : Options) (target : Text) :
    (∃ fixed, ∀ label, t.expandTarget options target label = fixed) ∨
      ∃ before after, ∀ label, t.expandTarget options target label = before ++ label ++ after := by
  by_cases hplain : ∀ w : Wrapper, t.expand target ≠ w.wrap [':']
  · simp only [expandTarget, expandPlaceholder_eq_self hplain]
    cases t.substituteColon_cases options (t.expand target) with
    | inl hsame => exact .inl ⟨_, hsame⟩
    | inr hput =>
        obtain ⟨before, after, -, -, hput⟩ := hput
        exact .inr ⟨before, after, fun label => by rw [hput, List.append_assoc]⟩
  · obtain ⟨w, hw⟩ : ∃ w : Wrapper, t.expand target = w.wrap [':'] := by simpa using hplain
    simp only [expandTarget, hw, substituteColon_placeholder]
    by_cases hnamed : t.roots.has [w.opener] = true
    · exact .inl ⟨_, fun _ => by rw [if_pos hnamed]⟩
    · obtain ⟨before, after, hput⟩ := t.exists_inWrapper w
      exact .inr ⟨before, after, fun label => by rw [if_neg hnamed, expandPlaceholder_wrap, hput]⟩

/-- A target is in a namespace if the name is registered and stands before the first colon. -/
theorem splitPrefix?_name_eq_some_iff {target name : Text} :
    (t.splitPrefix? target).map Prod.fst = some name ↔
      t.roots.has name = true ∧ ':' ∉ name ∧ name ++ [':'] <+: target := by
  rw [Option.map_eq_some_iff]
  constructor
  · intro ⟨⟨name', payload⟩, hsplit, hfst⟩
    cases hfst
    obtain ⟨hfirst, hn⟩ := splitPrefix?_eq_some_iff.mp hsplit
    exact ⟨hn, (Text.exists_of_splitFirst? hfirst).2, Text.prefix_of_splitFirst? hfirst⟩
  · intro ⟨hn, hcolon, payload, htarget⟩
    rw [← htarget, List.append_assoc]
    exact ⟨_, splitPrefix?_eq_some_iff.mpr ⟨Text.splitFirst?_append hcolon payload, hn⟩, rfl⟩

theorem splitPrefix?_substituteColon (ht : t.WellFormed) (options : Options) (target : Text)
    {label : Text} (hcolon : ':' ∉ label) :
    (t.splitPrefix? (t.substituteColon options target label)).map Prod.fst =
      (t.splitPrefix? target).map Prod.fst := by
  apply Option.ext
  intro name
  rw [splitPrefix?_name_eq_some_iff, splitPrefix?_name_eq_some_iff]
  refine and_congr_right fun hn => and_congr_right fun _ => ?_
  exact ⟨prefix_of_prefix_substituteColon hcolon,
    prefix_substituteColon_of_registered (ht.isName hn) hn⟩

end NamespaceTable

namespace Resolver

variable {r : Resolver} {target label : Text}

/-- A target that no rule claims keeps its kind when a label is put in that is not empty and has
neither a colon nor a slash: it is a URL afterwards if it was one before, and in the same namespace,
if in any. An empty label would make a URL of `blocks:/:/x`. -/
theorem label_keeps_kind (ht : r.table.Reachable) (hne : target.trimmed ≠ [])
    (hrule : Rule.of? target.trimmed = none) (hlabel : label ≠ []) (hcolon : ':' ∉ label)
    (hslash : '/' ∉ label) :
    let t := target.trimmed
    let canonical := r.table.expandTarget r.options t label
    hasProtocol canonical = hasProtocol t ∧
      (r.table.splitPrefix? canonical).map Prod.fst = (r.table.splitPrefix? t).map Prod.fst ∧
      ∀ source mode, (∃ url, r.resolve ⟨target, label, some source, mode⟩ = .external url) ↔
        ∃ scheme rest, IsScheme scheme ∧ t = scheme ++ ':' :: '/' :: '/' :: rest := by
  intro t canonical
  have hcanonical : canonical = r.table.substituteColon r.options t label :=
    r.table.expandTarget_unclaimed hrule r.options label
  have hprotocol : hasProtocol canonical = hasProtocol t :=
    hcanonical ▸ r.table.hasProtocol_substituteColon r.options t hlabel hcolon hslash
  refine ⟨hprotocol, ?_, fun source mode => ?_⟩
  · exact hcanonical ▸ NamespaceTable.splitPrefix?_substituteColon ht.wellFormed r.options t hcolon
  · rw [exists_external_iff hne rfl source mode, ← hasProtocol_iff, ← hprotocol]

/-- The colon of the payload stands between two slashes. -/
theorem label_keeps_kind_between_slashes :
    let r : Resolver := ⟨.default, {}, .ofFolders [⟨"/ws"⟩]⟩
    let target : Text := " blocks:/:/x "
    let label : Text := "intro"
    let canonical := r.table.expandTarget r.options target.trimmed label
    r.table.Reachable ∧ target.trimmed ≠ [] ∧ Rule.of? target.trimmed = none ∧ label ≠ [] ∧
      ':' ∉ label ∧ '/' ∉ label ∧ canonical = "blocks:/intro/x" ∧ hasProtocol canonical = false ∧
      (r.table.splitPrefix? canonical).map Prod.fst = some "blocks" ∧
      ¬ ∃ url, r.resolve ⟨target, label, some ⟨"/ws/a.md"⟩, .location⟩ = .external url := by
  intro r target label canonical
  have hne : target.trimmed ≠ [] := by decide
  have hrule : Rule.of? target.trimmed = none := by decide
  have hlabel : label ≠ [] := by decide
  have hcolon : ':' ∉ label := by decide
  have hslash : '/' ∉ label := by decide
  obtain ⟨hprotocol, hname, hexternal⟩ :=
    @label_keeps_kind r target label .default hne hrule hlabel hcolon hslash
  refine ⟨.default, hne, hrule, hlabel, hcolon, hslash, by decide, hprotocol.trans (by decide),
    hname.trans (by decide), ?_⟩
  rw [hexternal, ← hasProtocol_iff]
  decide

end Resolver
end Shorthand
