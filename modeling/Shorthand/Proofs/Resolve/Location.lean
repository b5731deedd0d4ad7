import Shorthand.Proofs.Path.Rooted
import Shorthand.Proofs.Workspace
import Shorthand.Resolve

/-!
Where a link lies. The place does not depend on the mode, and it is absolute once the document
has a directory to start from. It is in normal form as well, unless the index file behind a label
leaves it.
-/

namespace Shorthand

namespace Path

theorem sourceDirectory_isAbsolute {source : Path} (h : source.isAbsolute)
    (hr : source.components ≠ [.root]) : source.sourceDirectory.isAbsolute :=
  normalize_isAbsolute (directory_isAbsolute h hr)

end Path

theorem labelTarget_isAbsolute (options : Options) (label : Text) {source : Path}
    (h : source.sourceDirectory.isAbsolute) : (labelTarget options label source).isAbsolute := by
  have hj := Path.joinTarget_isAbsolute h label.trimmed
  simp only [labelTarget]
  split
  · exact Path.join_isAbsolute hj _
  · exact hj

namespace Options

/-- The index file goes behind a text that ends in `/`. -/
def complete (options : Options) (s : Text) : Text :=
  if s.getLast? = some '/' then s ++ options.indexFile else s

theorem head?_complete (options : Options) (s : Text) : (options.complete s).head? = s.head? := by
  unfold complete
  split
  · rename_i hlast
    exact List.head?_append_of_ne_nil _ fun hnil => by simp [hnil] at hlast
  · rfl

end Options

theorem NamespaceTable.applyDefaults_eq (t : NamespaceTable) (options : Options) {target : Text}
    (h : hasProtocol target = false) :
    t.applyDefaults options target = options.complete (t.place target) := by
  rw [applyDefaults, h]
  rfl

namespace Workspaces

/-- The index file has no part in the choice of the base directory. -/
theorem baseDirectory_complete (w : Workspaces) (options : Options) (target : Text)
    (source : Path) :
    w.baseDirectory (options.complete target) source = w.baseDirectory target source := by
  rw [baseDirectory, baseDirectory, options.head?_complete]

theorem baseDirectory_isAbsolute {folders : List Path} (hf : ∀ f ∈ folders, f.isAbsolute)
    {source : Path} (h : source.sourceDirectory.isAbsolute) (target : Text) :
    ((ofFolders folders).baseDirectory target source).isAbsolute := by
  unfold baseDirectory
  split
  · cases hw : (ofFolders folders).rootOf? source with
    | none => exact h
    | some root => exact rootOf?_isAbsolute hf hw
  · exact h

/-- A location is never shown as a URL. -/
theorem present_ne_external (w : Workspaces) (mode : Mode) (source location : Path) (url : Text) :
    w.present mode source location ≠ .external url := by
  unfold present
  split <;> nofun

theorem present_fromWorkspace_under {w : Workspaces} {source root l : Path} {s : Text}
    (hw : w.rootOf? source = some root) (h : l.relativeTo? root = some s) :
    w.present .fromWorkspace source l = .display s := by
  simp [present, Mode.fromWorkspace, hw, h]

theorem present_fromWorkspace_outside {w : Workspaces} {source l : Path}
    (h : ∀ root, w.rootOf? source = some root → ¬ l.isUnder root) :
    w.present .fromWorkspace source l = .display l.text := by
  cases hw : w.rootOf? source with
  | none => simp [present, Mode.fromWorkspace, hw]
  | some root =>
      have hn := h root hw
      rw [← Path.isSome_relativeTo?, Option.not_isSome_iff_eq_none] at hn
      simp [present, Mode.fromWorkspace, hw, hn]

end Workspaces

namespace Resolver

theorem locate_eq (r : Resolver) {canonical : Text} (h : hasProtocol canonical = false)
    (source : Path) :
    let placed := r.table.place canonical
    r.locate canonical source =
      (r.workspaces.baseDirectory placed source).joinTarget (r.options.complete placed) := by
  simp only [locate, r.table.applyDefaults_eq r.options h, Workspaces.baseDirectory_complete]

theorem resolve_eq_external {r : Resolver} {target label canonical : Text}
    (hne : target.trimmed ≠ [])
    (hcanonical : r.table.expandTarget r.options target.trimmed label = canonical)
    (h : hasProtocol canonical = true) (source : Option Path) (mode : Mode) :
    r.resolve ⟨target, label, source, mode⟩ = .external canonical := by
  simp only [resolve, hne, hcanonical, h, if_false, if_true]

theorem resolve_eq_present {r : Resolver} {target label canonical : Text}
    (hne : target.trimmed ≠ [])
    (hcanonical : r.table.expandTarget r.options target.trimmed label = canonical)
    (h : hasProtocol canonical = false) (source : Path) (mode : Mode) :
    r.resolve ⟨target, label, some source, mode⟩ =
      r.workspaces.present mode source (r.locate canonical source) := by
  simp only [resolve, hne, hcanonical, h, Bool.false_eq_true, if_false]

/-- A link of a document comes back as a URL just if its canonical form is one. -/
theorem resolve_eq_external_iff {r : Resolver} {target label canonical url : Text}
    (hne : target.trimmed ≠ [])
    (hcanonical : r.table.expandTarget r.options target.trimmed label = canonical) (source : Path)
    (mode : Mode) : r.resolve ⟨target, label, some source, mode⟩ = .external url ↔
      hasProtocol canonical = true ∧ url = canonical := by
  cases h : hasProtocol canonical with
  | true =>
      rw [resolve_eq_external hne hcanonical h, Resolution.external.injEq]
      exact ⟨fun heq => ⟨rfl, heq.symm⟩, fun heq => heq.2.symm⟩
  | false =>
      rw [resolve_eq_present hne hcanonical h]
      exact iff_of_false (Workspaces.present_ne_external _ _ _ _ _) nofun

theorem exists_external_iff {r : Resolver} {target label canonical : Text}
    (hne : target.trimmed ≠ [])
    (hcanonical : r.table.expandTarget r.options target.trimmed label = canonical) (source : Path)
    (mode : Mode) : (∃ url, r.resolve ⟨target, label, some source, mode⟩ = .external url) ↔
      hasProtocol canonical = true := by
  simp only [resolve_eq_external_iff hne hcanonical, exists_and_left, exists_eq, and_true]

/-- Where a link of a document lies if it is not a URL. -/
def location (r : Resolver) (target label : Text) (source : Path) : Path :=
  if target.trimmed = [] then labelTarget r.options label source
  else r.locate (r.table.expandTarget r.options target.trimmed label) source

/-- The mode only shapes the answer: a link of a document is a URL in every mode, or every mode
presents the same location. -/
theorem resolve_eq_external_or_present (r : Resolver) (target label : Text) (source : Path) :
    (∃ url, ∀ mode, r.resolve ⟨target, label, some source, mode⟩ = .external url) ∨
      ∀ mode, r.resolve ⟨target, label, some source, mode⟩ =
        r.workspaces.present mode source (r.location target label source) := by
  by_cases ht : target.trimmed = []
  · refine .inr fun mode => ?_
    simp only [resolve, location, ht, if_true]
  · by_cases hp : hasProtocol (r.table.expandTarget r.options target.trimmed label)
    · exact .inl ⟨_, resolve_eq_external ht rfl hp (some source)⟩
    · refine .inr fun mode => ?_
      rw [resolve_eq_present ht rfl (Bool.eq_false_iff.mpr hp), location, if_neg ht]

theorem present_of_resolve_location {r : Resolver} {target label : Text} {source l : Path}
    (h : r.resolve ⟨target, label, some source, .location⟩ = .location l) (mode : Mode) :
    r.location target label source = l ∧
      r.resolve ⟨target, label, some source, mode⟩ = r.workspaces.present mode source l := by
  rcases r.resolve_eq_external_or_present target label source with ⟨url, hurl⟩ | hpresent
  · rw [hurl] at h
    contradiction
  · have hlocation := Resolution.location.inj ((hpresent .location).symm.trans h)
    exact ⟨hlocation, hlocation ▸ hpresent mode⟩

theorem location_isAbsolute {r : Resolver} {folders : List Path}
    (hw : r.workspaces = .ofFolders folders) (hf : ∀ f ∈ folders, f.isAbsolute) {source : Path}
    (h : source.sourceDirectory.isAbsolute) (target label : Text) :
    (r.location target label source).isAbsolute := by
  unfold location
  split
  · exact labelTarget_isAbsolute r.options label h
  · unfold locate
    rw [hw]
    exact Path.joinTarget_isAbsolute (Workspaces.baseDirectory_isAbsolute hf h _) _

/-- A location is absolute, and in normal form unless it is the index file of a directory that a
label names. That file is joined onto the directory as it is configured: where it climbs, or its
separators or dots are not those of a normal form, so are those of the location. -/
theorem location_normal_iff (t : NamespaceTable) (options : Options) {folders : List Path}
    (hf : ∀ f ∈ folders, f.isAbsolute) {source l : Path} {target label : Text}
    (hs : source.isAbsolute) (hr : source.components ≠ [.root])
    (h : (⟨t, options, .ofFolders folders⟩ : Resolver).resolve
      ⟨target, label, some source, .location⟩ = .location l) :
    let directory := source.sourceDirectory.joinTarget label.trimmed
    l.isAbsolute ∧
      (l.normalize = l ↔ target.trimmed ≠ [] ∨ label.trimmed.getLast? ≠ some '/' ∨
        directory.StaysNormal options.indexFile) := by
  intro directory
  have hdir := Path.sourceDirectory_isAbsolute hs hr
  obtain ⟨hl, -⟩ := present_of_resolve_location h .location
  refine ⟨hl ▸ location_isAbsolute rfl hf hdir target label, ?_⟩
  rw [← hl, location]
  by_cases htarget : target.trimmed = []
  · rw [if_pos htarget]
    by_cases hlast : label.trimmed.getLast? = some '/'
    · have hindex : labelTarget options label source = directory.join options.indexFile :=
        if_pos hlast
      rw [hindex, Path.normalize_join_eq_self_iff (Path.joinTarget_isAbsolute hdir _)
        (Path.normalize_normalize _)]
      simp only [htarget, hlast, ne_eq, not_true_eq_false, false_or]
      rfl
    · have hplain : labelTarget options label source = directory := if_neg hlast
      rw [hplain]
      exact iff_of_true (Path.normalize_normalize _) (.inr (.inl hlast))
  · rw [if_neg htarget]
    exact iff_of_true (Path.normalize_normalize _) (.inl htarget)

/-- An index file that climbs is normalized behind a target, but not behind a label. -/
theorem location_normal_iff_climbing_index :
    let source : Path := ⟨"/ws/docs/page.md"⟩
    let folders : List Path := [⟨"/ws"⟩]
    let r : Resolver := ⟨.default, { indexFile := "../README.md" }, .ofFolders folders⟩
    let l : Path := ⟨"/ws/docs/notes/../README.md"⟩
    (∀ f ∈ folders, f.isAbsolute) ∧ source.isAbsolute ∧ source.components ≠ [.root] ∧
      r.resolve ⟨[], "notes/", some source, .location⟩ = .location l ∧ l.isAbsolute ∧
      l.normalize ≠ l ∧
      r.resolve ⟨"./notes/", [], some source, .location⟩ = .location l.normalize := by
  intro source folders r l
  have hf : ∀ f ∈ folders, f.isAbsolute := by decide
  have hs : source.isAbsolute := by decide
  have hr : source.components ≠ [.root] := by decide
  have hresolve : r.resolve ⟨[], "notes/", some source, .location⟩ = .location l := by decide
  obtain ⟨habs, hnormal⟩ := location_normal_iff r.table r.options hf hs hr hresolve
  exact ⟨hf, hs, hr, hresolve, habs, mt hnormal.mp (by decide), by decide⟩

end Resolver
end Shorthand
