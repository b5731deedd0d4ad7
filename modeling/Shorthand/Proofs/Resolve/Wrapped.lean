import Shorthand.Proofs.Resolve.Footprint
import Shorthand.Proofs.Resolve.Location
import Shorthand.Proofs.Resolve.Protocol

/-!
Where wrapper links lie. Their label is put into the payload, and the payload is a path in the
namespace of the wrapper, unless name and payload together read like a URL.
-/

namespace Shorthand

variable {w : Wrapper} {ns payload target label : Text}

namespace Wrapper

/-- What a payload stands for in the namespace, before the label is put in. -/
def canonicalPayload (payload : Text) : Text :=
  if payload = ['.'] then ['.', '/', ':']
  else if payload = ['!'] then ['!', ':']
  else payload

end Wrapper

namespace NamespaceTable

variable {t : NamespaceTable}

theorem expandTarget_wrap (ht : t.WellFormed) (hw : t.wrapperNamespace? w = some ns)
    (options : Options) (payload label : Text) :
    t.expandTarget options (w.wrap payload) label =
      t.expandTarget options (ns ++ ':' :: Wrapper.canonicalPayload payload) label := by
  have hns := ht.registered hw
  have hname := expand_name t (ht.isName hns)
  unfold Wrapper.canonicalPayload
  split
  · rename_i hdot
    rw [hdot]
    exact expandTarget_congr ((expand_wrap_dot hw).trans (hname _).symm) options label
  · split
    · rename_i hbang
      rw [hbang]
      exact expandTarget_congr ((expand_wrap_bang hw).trans (hname _).symm) options label
    · rename_i hdot hbang
      by_cases hnil : payload = []
      · rw [hnil, expandTarget_wrap_nil ht hw, expandTarget_name_colon ht hns]
      · exact expandTarget_congr
          ((expand_wrap hw hnil hdot hbang).trans (hname _).symm) options label

/-- A target in a namespace takes in the label behind the name. It reads like a URL if it did so
before, or if the label makes it. -/
theorem hasProtocol_expandTarget_name (hname : Namespace.IsName ns) (hns : t.roots.has ns = true)
    (options : Options) (payload label : Text) :
    let canonical := t.expandTarget options (ns ++ ':' :: payload) label
    let isUrl := IsScheme ns ∧ ['/', '/'] <+: filled payload label
    (hasProtocol canonical = true ↔ isUrl) ∧
    (¬ isUrl → canonical = ns ++ ':' :: filled payload label) := by
  intro canonical isUrl
  by_cases hurl : IsScheme ns ∧ ['/', '/'] <+: payload
  · have hfilled : isUrl := ⟨hurl.1, prefix_filled (by simp) (by decide) hurl.2 label⟩
    refine ⟨iff_of_true ?_ hfilled, absurd hfilled⟩
    obtain ⟨hs, rest, rfl⟩ := hurl
    have hcanonical := t.expandTarget_scheme options hs rest label
    exact (congrArg hasProtocol hcanonical).trans
      ((hasProtocol_name_iff hname).mpr ⟨hs, List.prefix_append ['/', '/'] _⟩)
  · have hcanonical : canonical = ns ++ ':' :: filled payload label :=
      (t.expandTarget_eq_substituteColon (hname.head?_ne_delimiter _) options label).trans
        (substituteColon_name hname hns (schemeLength?_name hname hurl))
    exact ⟨hcanonical ▸ hasProtocol_name_iff hname, fun _ => hcanonical⟩

/-- Tables in which a namespace is registered bring its targets to the same canonical form. -/
theorem expandTarget_name_congr {t' : NamespaceTable} (hname : Namespace.IsName ns)
    (hns : t.roots.has ns = true) (hns' : t'.roots.has ns = true) (options : Options)
    (payload label : Text) : t'.expandTarget options (ns ++ ':' :: payload) label =
      t.expandTarget options (ns ++ ':' :: payload) label := by
  have hdelimiter := hname.head?_ne_delimiter (':' :: payload)
  rw [t.expandTarget_eq_substituteColon hdelimiter, t'.expandTarget_eq_substituteColon hdelimiter]
  simp only [substituteColon, splitPrefix?_name hname hns, splitPrefix?_name hname hns']

end NamespaceTable

namespace Resolver

variable {r : Resolver} {root : Text}

/-- Where a payload lies in a namespace with the given root. -/
def landing (r : Resolver) (root payload : Text) (source : Path) : Path :=
  let placed := underRoot root payload
  let completed := if placed.getLast? = some '/' then placed ++ r.options.indexFile else placed
  (r.workspaces.baseDirectory completed source).joinTarget completed

/-- The index file has no part in the choice of the base directory here either. -/
theorem landing_eq (r : Resolver) (root payload : Text) (source : Path) :
    let placed := underRoot root payload
    r.landing root payload source =
      (r.workspaces.baseDirectory placed source).joinTarget (r.options.complete placed) := by
  intro placed
  rw [← r.workspaces.baseDirectory_complete r.options]
  rfl

theorem locate_name (hname : Namespace.IsName ns) (hroot : r.table.root? ns = some root)
    (hurl : ¬ (IsScheme ns ∧ ['/', '/'] <+: payload)) (source : Path) :
    r.locate (ns ++ ':' :: payload) source = r.landing root payload source := by
  have hns : r.table.roots.has ns = true := Option.isSome_iff_exists.mpr ⟨root, hroot⟩
  have hplace : r.table.place (ns ++ ':' :: payload) = underRoot root payload := by
    simp only [NamespaceTable.place, NamespaceTable.splitPrefix?_name hname hns, hroot,
      Option.getD_some]
  have hprotocol : hasProtocol (ns ++ ':' :: payload) = false :=
    Bool.eq_false_iff.mpr (mt (hasProtocol_name_iff hname).mp hurl)
  rw [r.locate_eq hprotocol, hplace, landing_eq]

/-- A wrapped target is a path in the namespace of the wrapper, unless it makes up a URL. -/
theorem resolve_wrap (ht : r.table.WellFormed) (hw : r.table.wrapperNamespace? w = some ns)
    (hroot : r.table.root? ns = some root) (htarget : target.trimmed = w.wrap payload)
    (label : Text) (source : Path) (mode : Mode) :
    let path := filled (Wrapper.canonicalPayload payload) label
    let isUrl := IsScheme ns ∧ ['/', '/'] <+: path
    let resolved := r.resolve ⟨target, label, some source, mode⟩
    (isUrl → resolved = .external (r.table.expandTarget r.options target.trimmed label)) ∧
      (¬ isUrl → resolved = r.workspaces.present mode source (r.landing root path source)) := by
  intro path isUrl resolved
  have hns := ht.registered hw
  have hname := ht.isName hns
  obtain ⟨hprotocol, hcanonical⟩ := NamespaceTable.hasProtocol_expandTarget_name hname hns r.options
    (Wrapper.canonicalPayload payload) label
  rw [← NamespaceTable.expandTarget_wrap ht hw, ← htarget] at hprotocol hcanonical
  have hne : target.trimmed ≠ [] := by simp [htarget, Wrapper.wrap]
  refine ⟨fun hurl => resolve_eq_external hne rfl (hprotocol.mpr hurl) _ mode, fun hurl => ?_⟩
  rw [← locate_name hname hroot hurl, ← hcanonical hurl]
  exact resolve_eq_present hne rfl (Bool.eq_false_iff.mpr (mt hprotocol.mp hurl)) source mode

/-- With another root for its namespace, a wrapped target leads to the same path below that root. -/
theorem resolve_wrap_rerooted {r' : Resolver} {root' : Text} (ht : r.table.WellFormed)
    (ht' : r'.table.WellFormed) (hoptions : r'.options = r.options)
    (hworkspaces : r'.workspaces = r.workspaces) (hw : r.table.wrapperNamespace? w = some ns)
    (hw' : r'.table.wrapperNamespace? w = some ns) (hroot : r.table.root? ns = some root)
    (hroot' : r'.table.root? ns = some root') (htarget : target.trimmed = w.wrap payload)
    (label : Text) (source : Path) :
    let path := filled (Wrapper.canonicalPayload payload) label
    (∀ mode, r'.resolve ⟨target, label, some source, mode⟩ =
        r.resolve ⟨target, label, some source, mode⟩) ∨
      ∀ mode, r.resolve ⟨target, label, some source, mode⟩ =
          r.workspaces.present mode source (r.landing root path source) ∧
        r'.resolve ⟨target, label, some source, mode⟩ =
          r.workspaces.present mode source (r.landing root' path source) := by
  intro path
  have hbefore := resolve_wrap ht hw hroot htarget label source
  have hafter := resolve_wrap ht' hw' hroot' htarget label source
  by_cases hurl : IsScheme ns ∧ ['/', '/'] <+: path
  · refine .inl fun mode => ((hafter mode).1 hurl).trans ((congrArg _ ?_).trans
      ((hbefore mode).1 hurl).symm)
    have hns := ht.registered hw
    rw [htarget, hoptions, NamespaceTable.expandTarget_wrap ht hw,
      NamespaceTable.expandTarget_wrap ht' hw']
    exact NamespaceTable.expandTarget_name_congr (ht.isName hns) hns (ht'.registered hw') _ _ _
  · refine .inr fun mode => ⟨(hbefore mode).2 hurl, ((hafter mode).2 hurl).trans ?_⟩
    simp only [landing, hoptions, hworkspaces]
    rfl

/-- A link that a rule of a wrapper claims lies in the namespace of the wrapper, at the payload with
the label put in. Only if that starts with two slashes and the name of the namespace is made of
letters, the two read like a URL and the link is taken for one. -/
theorem wrapper_link_stays_in_namespace (ht : r.table.Reachable)
    (hw : r.table.wrapperNamespace? w = some ns) {rule : Rule} (hrule : rule.wrapper? = some w)
    (happlies : rule.applies target.trimmed = true) (label : Text) (source : Path) (mode : Mode) :
    ∃ root payload, r.table.root? ns = some root ∧ target.trimmed = w.wrap payload ∧
      let path := filled (Wrapper.canonicalPayload payload) label
      let isUrl := IsScheme ns ∧ ['/', '/'] <+: path
      let resolved := r.resolve ⟨target, label, some source, mode⟩
      ((∃ url, resolved = .external url) ↔ isUrl) ∧
        (¬ isUrl → resolved = r.workspaces.present mode source (r.landing root path source)) := by
  have hwf := ht.wellFormed
  obtain ⟨root, hroot⟩ := Option.isSome_iff_exists.mp (hwf.registered hw)
  obtain ⟨payload, hpayload⟩ := Rule.exists_of_applies hrule happlies
  refine ⟨root, payload, hroot, hpayload, ?_⟩
  intro path isUrl resolved
  obtain ⟨hexternal, hlocated⟩ := resolve_wrap hwf hw hroot hpayload label source mode
  refine ⟨⟨?_, fun hurl => ⟨_, hexternal hurl⟩⟩, hlocated⟩
  rintro ⟨url, hresolved⟩
  by_contra hurl
  exact Workspaces.present_ne_external _ _ _ _ _ ((hlocated hurl).symm.trans hresolved)

/-- Brackets stand for `blocks`, which is made of letters. -/
theorem bracketed_slashes_become_url :
    let r : Resolver := ⟨.default, {}, .ofFolders [⟨"/ws"⟩]⟩
    let resolved := r.resolve ⟨"[//cdn/x]", "x", some ⟨"/ws/a.md"⟩, .location⟩
    r.table.Reachable ∧ r.table.wrapperNamespace? .brackets = some "blocks" ∧
      (Rule.wrapped .brackets).applies (Text.trimmed "[//cdn/x]") = true ∧
      (∃ url, resolved = .external url) ∧ resolved = .external "blocks://cdn/x" := by
  intro r resolved
  have happlies : (Rule.wrapped .brackets).applies (Text.trimmed "[//cdn/x]") = true := by decide
  have hw : r.table.wrapperNamespace? .brackets = some "blocks" := rfl
  obtain ⟨root, payload, -, hpayload, hurl, -⟩ :=
    wrapper_link_stays_in_namespace .default hw rfl happlies "x" ⟨"/ws/a.md"⟩ .location
  obtain rfl : payload = "//cdn/x" := by
    have hwrapped := congrArg (Wrapper.payload? .brackets) hpayload
    rw [Wrapper.payload?_wrap] at hwrapped
    exact (Option.some.inj hwrapped).symm
  refine ⟨.default, hw, happlies,
    hurl.mpr ⟨⟨by decide, List.all_eq_true.mp (by decide)⟩, by decide⟩, by decide⟩

end Resolver
end Shorthand
