import Shorthand.Proofs.Expansion
import Shorthand.Proofs.Placeholder
import Shorthand.Resolve

/-!
Protocol links. A target that starts with a scheme passes every stage of resolution, and at most the
last colon behind its marker gives way to the label.
-/

namespace Shorthand

/-- The canonical form of a URL, whatever is registered. -/
theorem NamespaceTable.expandTarget_scheme (t : NamespaceTable) (options : Options) {scheme : Text}
    (h : IsScheme scheme) (rest label : Text) :
    t.expandTarget options (scheme ++ ':' :: '/' :: '/' :: rest) label =
      scheme ++ ':' :: '/' :: '/' ::
        (if options.urlPlaceholders then spliceLastColon rest 0 label else rest) := by
  rw [t.expandTarget_eq_substituteColon (h.isName.head?_ne_delimiter _),
    t.substituteColon_scheme options h]

namespace Resolver

theorem resolve_scheme (r : Resolver) (q : Request) {scheme rest : Text} (h : IsScheme scheme)
    (hq : q.target.trimmed = scheme ++ ':' :: '/' :: '/' :: rest) :
    r.resolve q = .external (scheme ++ ':' :: '/' :: '/' ::
      (if r.options.urlPlaceholders then spliceLastColon rest 0 q.label else rest)) := by
  have hne : q.target.trimmed ≠ [] := by simp [hq]
  have hprotocol (s : Text) : hasProtocol (scheme ++ ':' :: '/' :: '/' :: s) = true := by
    rw [hasProtocol, schemeLength?_append h, Option.isSome_some]
  simp only [resolve, hne, if_false]
  rw [hq, r.table.expandTarget_scheme r.options h, if_pos (hprotocol _)]

/-- A protocol link comes back as the URL that it is, with the label in the place of the last colon
behind `scheme://` if labels are put into URLs and there is such a colon. Neither the table nor the
document, the mode, the index file or the workspaces have a part in it. -/
theorem protocol_link_stays_url (r : Resolver) (q : Request) {scheme rest : Text}
    (h : IsScheme scheme) (hq : q.target.trimmed = scheme ++ ':' :: '/' :: '/' :: rest) :
    ∃ tail, r.resolve q = .external (scheme ++ ':' :: '/' :: '/' :: tail) ∧
      (r.options.urlPlaceholders = false ∨ ':' ∉ rest → tail = rest) ∧
      (r.options.urlPlaceholders = true → ∀ before after, rest = before ++ ':' :: after →
        ':' ∉ after → tail = before ++ q.label ++ after) := by
  refine ⟨_, r.resolve_scheme q h hq, ?_, ?_⟩
  · rintro (hoff | hcolon)
    · rw [hoff]
      rfl
    · rw [spliceLastColon_of_not_mem hcolon, ite_self]
  · rintro hon before after rfl hafter
    rw [if_pos hon, spliceLastColon_split hafter, List.append_assoc]

/-- A namespace named like the scheme and a link without a document. -/
theorem protocol_link_stays_url_registered :
    let t : NamespaceTable := { roots := [("https", "mirror")], rootDefault := some "pages" }
    let q : Request := ⟨" https://host:80/:/ ", "a:b", none, .location⟩
    q.target.trimmed = "https" ++ ':' :: '/' :: '/' :: "host:80/:/" ∧ IsScheme "https" ∧
      (⟨t, {}, .ofFolders [⟨"/ws"⟩]⟩ : Resolver).resolve q = .external "https://host:80/a:b/" := by
  intro t q
  have hq : q.target.trimmed = "https" ++ ':' :: '/' :: '/' :: "host:80/:/" := by decide
  have hscheme : IsScheme "https" := ⟨by decide, List.all_eq_true.mp (by decide)⟩
  obtain ⟨tail, hresolve, -, htail⟩ :=
    protocol_link_stays_url ⟨t, {}, .ofFolders [⟨"/ws"⟩]⟩ q hscheme hq
  rw [htail rfl "host:80/" "/" (by decide) (by decide)] at hresolve
  exact ⟨hq, hscheme, hresolve⟩

end Resolver
end Shorthand
