import Shorthand.Proofs.Expansion
import Shorthand.Proofs.Placeholder
import Shorthand.Resolve

/-!
What the resolution of a link reads of a namespace table: the wrappers, the default root, and the
roots of the namespaces that the target names or that a wrapper around it stands for. A namespace
that is registered anew is read for links with its own prefix only.
-/

namespace Shorthand

variable {target label name payload : Text} {w : Wrapper}

namespace NamespaceTable

variable {t t' : NamespaceTable} {options : Options}

theorem has_eq_of_root? (h : t'.root? name = t.root? name) :
    t'.roots.has name = t.roots.has name := by
  simp only [root?] at h
  rw [Registry.has, h, Registry.has]

/-- Whether a target is in a namespace depends on the names that it starts with. -/
theorem splitPrefix?_congr
    (h : ∀ name, name ++ [':'] <+: target → t'.roots.has name = t.roots.has name) :
    t'.splitPrefix? target = t.splitPrefix? target := by
  unfold splitPrefix?
  split
  · rename_i name payload hfirst
    rw [h name (Text.prefix_of_splitFirst? hfirst)]
  · rfl

theorem substituteColon_congr
    (h : ∀ name, name ++ [':'] <+: target → t'.roots.has name = t.roots.has name)
    (options : Options) (label : Text) :
    t'.substituteColon options target label = t.substituteColon options target label := by
  unfold substituteColon
  rw [splitPrefix?_congr h]

theorem place_congr (hdefault : t'.rootDefault = t.rootDefault)
    (h : ∀ name, name ++ [':'] <+: target → t'.root? name = t.root? name) :
    t'.place target = t.place target := by
  unfold place
  rw [splitPrefix?_congr fun name hname => has_eq_of_root? (h name hname), hdefault]
  cases hsplit : t.splitPrefix? target with
  | none => rfl
  | some split =>
      have hstarts := Text.prefix_of_splitFirst? (splitPrefix?_eq_some_iff.mp hsplit).1
      simp only [h split.1 hstarts]

/-- Tables that differ in the roots of their namespaces only. -/
structure SameApartFromRoots (t t' : NamespaceTable) : Prop where
  wrapperNamespace? : ∀ w, t'.wrapperNamespace? w = t.wrapperNamespace? w
  rootDefault : t'.rootDefault = t.rootDefault

namespace SameApartFromRoots

theorem inWrapper_eq (h : t.SameApartFromRoots t') :
    t'.inWrapper w payload target = t.inWrapper w payload target := by
  unfold inWrapper
  rw [h.wrapperNamespace?]

theorem expand_eq (h : t.SameApartFromRoots t') : t'.expand target = t.expand target := by
  rcases expand_cases target with hsame | ⟨w, -, hempty⟩ | hbraces | ⟨w, _, payload, -, hplaced⟩
  · rw [hsame, hsame]
  · rw [hempty, hempty]
  · rw [hbraces, hbraces]
  · rw [hplaced, hplaced, h.inWrapper_eq]

theorem expandTarget_eq (h : t.SameApartFromRoots t')
    (hregistered : ∀ name, name ++ [':'] <+: t.expand target →
      t'.roots.has name = t.roots.has name) (options : Options) (label : Text) :
    t'.expandTarget options target label = t.expandTarget options target label := by
  simp only [expandTarget, h.expand_eq, substituteColon_congr hregistered]
  unfold expandPlaceholder
  split
  · exact h.inWrapper_eq
  · rfl

end SameApartFromRoots

/-- A target uses a namespace by its name or by a wrapper that stands for it. -/
def Uses (t : NamespaceTable) (name target : Text) : Prop :=
  name ++ [':'] <+: target ∨
    ∃ w payload, t.wrapperNamespace? w = some name ∧ target = w.wrap payload

theorem not_prefix_of_delimiter (hname : Namespace.IsName name) {c : Char}
    (hc : Namespace.isNameChar c = false) (rest : Text) : ¬ name ++ [':'] <+: c :: rest := by
  rintro ⟨more, hmore⟩
  rw [List.append_assoc] at hmore
  exact hname.head? ([':'] ++ more) hc (by rw [hmore]; rfl)

theorem uses_of_inWrapper (ht : t.WellFormed) (hname : Namespace.IsName name) {wrapped : Text}
    (hwrapped : target = w.wrap wrapped) {other : Text}
    (h : name ++ [':'] <+: t.inWrapper w payload other) :
    t.Uses name target ∨ name ++ [':'] <+: other := by
  unfold inWrapper at h
  cases hw : t.wrapperNamespace? w with
  | none =>
      rw [hw] at h
      exact .inr h
  | some ns =>
      rw [hw] at h
      obtain ⟨more, hmore⟩ := h
      rw [List.append_assoc] at hmore
      obtain ⟨rfl, -⟩ := Text.eq_of_append_cons (hname.not_mem (by decide))
        ((ht.isName (ht.registered hw)).not_mem (by decide)) hmore
      exact .inl (.inr ⟨w, wrapped, hw, hwrapped⟩)

/-- An expanded target is in a namespace only if the target uses it. -/
theorem uses_of_prefix_expand (ht : t.WellFormed) (hname : Namespace.IsName name)
    (h : name ++ [':'] <+: t.expand target) : t.Uses name target := by
  rcases expand_cases target with
    hsame | ⟨w, -, hempty⟩ | hbraces | ⟨w, _, payload, hwrapped, hplaced⟩
  · exact .inl (hsame t ▸ h)
  · rw [hempty] at h
    exact absurd h (not_prefix_of_delimiter hname w.isNameChar_opener _)
  · rw [hbraces] at h
    exact absurd h (not_prefix_of_delimiter hname (by decide) _)
  · rw [hplaced] at h
    exact (uses_of_inWrapper ht hname hwrapped h).elim id .inl

/-- The placeholder of a wrapper comes from a target in that wrapper. -/
theorem exists_of_expand_eq_wrap (ht : t.WellFormed) (h : t.expand target = w.wrap [':']) :
    ∃ payload, target = w.wrap payload := by
  rcases expand_cases target with
    hsame | ⟨v, htarget, hempty⟩ | hbraces | ⟨v, _, payload, -, hplaced⟩
  · exact ⟨_, (hsame t).symm.trans h⟩
  · obtain rfl : v = w := by
      have hopener := (hempty t).symm.trans h
      cases v <;> cases w <;> first | rfl | cases hopener
    exact ⟨[], htarget⟩
  · have hopener := (hbraces t).symm.trans h
    cases w <;> cases hopener
  · rw [hplaced, inWrapper] at h
    cases hv : t.wrapperNamespace? v with
    | none =>
        rw [hv] at h
        exact ⟨_, h⟩
    | some ns =>
        rw [hv] at h
        exact absurd h ((ht.isName (ht.registered hv)).ne_wrap w _ _)

/-- A canonical form is in a namespace only if the target uses it, as long as the label does not
bring a colon. -/
theorem uses_of_prefix_expandTarget (ht : t.WellFormed) (hname : Namespace.IsName name)
    (hlabel : ':' ∉ label) (h : name ++ [':'] <+: t.expandTarget options target label) :
    t.Uses name target := by
  unfold expandTarget at h
  simp only at h
  have hsubstituted (h : name ++ [':'] <+: t.substituteColon options (t.expand target) label) :
      t.Uses name target :=
    uses_of_prefix_expand ht hname (prefix_of_prefix_substituteColon hlabel h)
  unfold expandPlaceholder at h
  split at h
  · rename_i w hfound
    have hw := List.find?_some hfound
    rw [Bool.and_eq_true, decide_eq_true_eq] at hw
    obtain ⟨wrapped, hwrapped⟩ := exists_of_expand_eq_wrap ht hw.1
    exact (uses_of_inWrapper ht hname hwrapped h).elim id hsubstituted
  · exact hsubstituted h

end NamespaceTable

namespace Resolver

variable {r r' : Resolver}

/-- A link that uses no namespace with another root resolves the same. -/
theorem resolve_eq_of_not_uses (ht : r.table.WellFormed) (h : r.table.SameApartFromRoots r'.table)
    (hoptions : r'.options = r.options) (hworkspaces : r'.workspaces = r.workspaces) {q : Request}
    (hlabel : ':' ∉ q.label)
    (hroots : ∀ name, r'.table.root? name ≠ r.table.root? name →
      Namespace.IsName name ∧ ¬ r.table.Uses name q.target.trimmed) :
    r'.resolve q = r.resolve q := by
  have hexpanded (name : Text) (hname : name ++ [':'] <+: r.table.expand q.target.trimmed) :
      r'.table.root? name = r.table.root? name := by
    by_contra hne
    obtain ⟨hisName, hunused⟩ := hroots name hne
    exact hunused (NamespaceTable.uses_of_prefix_expand ht hisName hname)
  have hcanonical (name : Text)
      (hname : name ++ [':'] <+: r.table.expandTarget r.options q.target.trimmed q.label) :
      r'.table.root? name = r.table.root? name := by
    by_contra hne
    obtain ⟨hisName, hunused⟩ := hroots name hne
    exact hunused (NamespaceTable.uses_of_prefix_expandTarget ht hisName hlabel hname)
  have htarget : r'.table.expandTarget r.options q.target.trimmed q.label =
      r.table.expandTarget r.options q.target.trimmed q.label :=
    h.expandTarget_eq (fun name hname => NamespaceTable.has_eq_of_root? (hexpanded name hname)) _ _
  simp only [resolve, locate, NamespaceTable.applyDefaults, hoptions, hworkspaces, htarget,
    NamespaceTable.place_congr h.rootDefault hcanonical]

end Resolver

namespace NamespaceTable

variable {t t' : NamespaceTable} {root : Text}

theorem exists_insert (t : NamespaceTable) (hname : Namespace.IsName name) (root : Text) :
    ∃ t', t.insert name root = .ok t' ∧ t.SameApartFromRoots t' ∧
      ∀ n, t'.root? n = if n = name then some root else t.root? n := by
  refine ⟨{ t with roots := t.roots.put name root }, ?_, ⟨fun w => by cases w <;> rfl, rfl⟩, ?_⟩
  · rw [insert, Namespace.nameFault?_eq_none_iff.mpr hname]
  · exact Registry.get?_put name root t.roots

/-- No wrapper stands for a namespace that is not registered, so only the name itself uses it. -/
theorem not_uses_unregistered (ht : t.WellFormed) (hnew : t.roots.has name = false)
    (h : (target.splitFirst? ':').map Prod.fst ≠ some name) (hname : Namespace.IsName name) :
    ¬ t.Uses name target := by
  rintro (⟨payload, rfl⟩ | ⟨w, payload, hw, -⟩)
  · rw [List.append_assoc, List.singleton_append,
      Text.splitFirst?_append (hname.not_mem (by decide))] at h
    exact h rfl
  · rw [ht.registered hw] at hnew
    contradiction

end NamespaceTable

namespace Resolver

/-- Registering a namespace is conservative: it always succeeds for a valid name, and a link without
that name before its first colon resolves as it did, in every mode and with every label that brings
no colon. -/
theorem registering_keeps_other_links {t : NamespaceTable} (ht : t.Reachable)
    (hname : Namespace.IsName name) (hnew : t.roots.has name = false) (root : Text) :
    ∃ t', t.insert name root = .ok t' ∧
      ∀ (options : Options) (workspaces : Workspaces) (q : Request), ':' ∉ q.label →
        (q.target.trimmed.splitFirst? ':').map Prod.fst ≠ some name →
        (⟨t', options, workspaces⟩ : Resolver).resolve q =
          (⟨t, options, workspaces⟩ : Resolver).resolve q := by
  obtain ⟨t', hinsert, hsame, hroot⟩ := t.exists_insert hname root
  refine ⟨t', hinsert, fun options workspaces q hlabel htarget => ?_⟩
  let r : Resolver := ⟨t, options, workspaces⟩
  let r' : Resolver := ⟨t', options, workspaces⟩
  have htables : r.table.SameApartFromRoots r'.table := hsame
  refine resolve_eq_of_not_uses ht.wellFormed htables rfl rfl hlabel ?_
  intro n hn
  obtain rfl : n = name := by
    by_contra hne
    exact hn ((hroot n).trans (if_neg hne))
  exact ⟨hname, NamespaceTable.not_uses_unregistered ht.wellFormed hnew htarget hname⟩

/-- The new name stands inside a wrapper, where the label takes the place of its colon. -/
theorem registering_keeps_wrapped_name :
    let r : Resolver := ⟨.default, {}, .ofFolders [⟨"/ws"⟩]⟩
    let q : Request := ⟨" [docs:a]", "x", some ⟨"/ws/page.md"⟩, .location⟩
    r.table.Reachable ∧ Namespace.IsName "docs" ∧ r.table.roots.has "docs" = false ∧
      ':' ∉ q.label ∧ (q.target.trimmed.splitFirst? ':').map Prod.fst ≠ some ("docs" : Text) ∧
      ∃ t', r.table.insert "docs" "handbook" = .ok t' ∧
        ({ r with table := t' } : Resolver).resolve q =
          .location ⟨"/ws/src/cavalion-blocks/docsxa"⟩ := by
  intro r q
  have hname : Namespace.IsName "docs" := ⟨by decide, List.all_eq_true.mp (by decide)⟩
  have hlabel : ':' ∉ q.label := by decide
  have htarget : (q.target.trimmed.splitFirst? ':').map Prod.fst ≠ some ("docs" : Text) := by decide
  have hresolve : r.resolve q = .location ⟨"/ws/src/cavalion-blocks/docsxa"⟩ := by decide
  obtain ⟨t', hinsert, hkept⟩ :=
    registering_keeps_other_links .default hname (show r.table.roots.has "docs" = false by decide)
      "handbook"
  exact ⟨.default, hname, by decide, hlabel, htarget, t', hinsert,
    (hkept r.options r.workspaces q hlabel htarget).trans hresolve⟩

end Resolver
end Shorthand
