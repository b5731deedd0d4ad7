import Mathlib.Data.List.DropRight
import Shorthand.Proofs.Path.Normal
import Shorthand.Proofs.Resolve.Wrapped

/-!
Where a payload of a namespace lands. Slashes behind the root of the namespace are trimmed, which
changes neither the components that are joined nor the base they are joined onto, as long as
something of the root is left.
-/

namespace Shorthand

namespace Text

theorem trimEnd_concat (drop : Char → Bool) (s : Text) (c : Char) :
    (s ++ [c]).trimEnd drop = if drop c then s.trimEnd drop else s ++ [c] :=
  List.rdropWhile_concat drop s c

theorem trimEnd_eq_nil_iff {drop : Char → Bool} {s : Text} :
    s.trimEnd drop = [] ↔ ∀ c ∈ s, drop c = true :=
  List.rdropWhile_eq_nil_iff

theorem head?_trimEnd {drop : Char → Bool} {s : Text} (h : s.trimEnd drop ≠ []) :
    (s.trimEnd drop).head? = s.head? := by
  obtain ⟨rest, hrest⟩ : s.trimEnd drop <+: s := List.rdropWhile_prefix drop s
  conv_rhs => rw [← hrest, List.head?_append_of_ne_nil _ h]

end Text

/-- Slashes behind a text spell nothing. -/
theorem Component.read_trimEnd (s : Text) : read (s.trimEnd (· == '/')) = read s := by
  induction s using List.reverseRecOn with
  | nil => rfl
  | append_singleton s c ih =>
      rw [Text.trimEnd_concat]
      split
      · rename_i hslash
        rw [ih, eq_of_beq hslash, read_append_slash, read_nil, List.append_nil]
      · rfl

/-- Whether the index file goes behind a text is seen behind its last `/`. -/
theorem Options.exists_complete_under (options : Options) (payload : Text) :
    ∃ completed : Text, ∀ root : Text,
      options.complete (root ++ '/' :: payload) = root ++ '/' :: completed := by
  refine ⟨if ('/' :: payload).getLast? = some '/' then payload ++ options.indexFile else payload,
    fun root => ?_⟩
  rw [complete, List.getLast?_append_of_ne_nil _ (List.cons_ne_nil _ _)]
  split
  · rw [List.append_assoc, List.cons_append]
  · rfl

theorem isAnchored_iff {payload : Text} :
    isAnchored payload = true ↔ ['.', '/'] <+: payload ∨ payload.head? = some '/' := by
  simp [isAnchored]

theorem underRoot_anchored {payload : Text} (h : isAnchored payload = true) (root : Text) :
    underRoot root payload = payload :=
  if_pos (.inl h)

theorem underRoot_nil (payload : Text) : underRoot [] payload = payload :=
  if_pos (.inr rfl)

theorem underRoot_eq {root payload : Text} (h : isAnchored payload = false)
    (hroot : root.trimEnd (· == '/') ≠ []) :
    underRoot root payload = root.trimEnd (· == '/') ++ '/' :: payload :=
  if_neg (not_or.mpr ⟨Bool.eq_false_iff.mp h, hroot⟩)

namespace Resolver

variable {r : Resolver} {name root payload : Text}

theorem landing_anchored (h : isAnchored payload = true) (root : Text) (source : Path) :
    r.landing root payload source =
      (r.workspaces.baseDirectory payload source).joinTarget (r.options.complete payload) := by
  rw [landing_eq, underRoot_anchored h]

/-- Trimming does not move the place below a root. -/
theorem landing_under (h : isAnchored payload = false) (hroot : ∃ c ∈ root, c ≠ '/')
    (source : Path) :
    r.landing root payload source = (r.workspaces.baseDirectory root source).joinTarget
      (r.options.complete (root ++ '/' :: payload)) := by
  have htrimmed : root.trimEnd (· == '/') ≠ [] := by
    obtain ⟨c, hc, hne⟩ := hroot
    exact fun hnil => hne (eq_of_beq (Text.trimEnd_eq_nil_iff.mp hnil c hc))
  have hbase : r.workspaces.baseDirectory (root.trimEnd (· == '/') ++ '/' :: payload) source =
      r.workspaces.baseDirectory root source := by
    rw [Workspaces.baseDirectory, List.head?_append_of_ne_nil _ htrimmed,
      Text.head?_trimEnd htrimmed]
    rfl
  obtain ⟨completed, hcompleted⟩ := r.options.exists_complete_under payload
  rw [landing_eq, underRoot_eq h htrimmed, hbase, hcompleted, hcompleted]
  apply Path.joinTarget_congr
  rw [Component.read_append_slash, Component.read_append_slash, Component.read_trimEnd]

/-- A target in a namespace lands at its payload if that starts with `./` or `/`, or if the root of
the namespace is empty, and at the payload below the root if it is not made of slashes only. What is
joined and starts with `/` is joined onto the root of the workspace, all else onto the directory of
the document. -/
theorem canonical_target_lands (ht : r.table.Reachable) (hroot : r.table.root? name = some root)
    (hlink : hasProtocol (name ++ ':' :: payload) = false) (source : Path) :
    let here := source.sourceDirectory
    let workspace := (r.workspaces.rootOf? source).getD here
    let joined (base : Path) (s : Text) := base.joinTarget (r.options.complete s)
    let location := r.locate (name ++ ':' :: payload) source
    (['.', '/'] <+: payload → location = joined here payload) ∧
      (payload.head? = some '/' → location = joined workspace payload) ∧
      (¬ ['.', '/'] <+: payload → payload.head? ≠ some '/' →
        (root = [] → location = joined here payload) ∧
          ((∃ c ∈ root, c ≠ '/') → location =
            joined (if root.head? = some '/' then workspace else here) (root ++ '/' :: payload))) ∧
      ∀ target label mode, target.trimmed ≠ [] →
        r.table.expandTarget r.options target.trimmed label = name ++ ':' :: payload →
          r.resolve ⟨target, label, some source, mode⟩ =
            r.workspaces.present mode source location := by
  intro here workspace joined location
  have hname := ht.wellFormed.isName (Option.isSome_iff_exists.mpr ⟨root, hroot⟩)
  have hlocation : location = r.landing root payload source :=
    locate_name hname hroot
      (mt (hasProtocol_name_iff hname).mpr (Bool.eq_false_iff.mp hlink)) source
  have hbase (s : Text) :
      r.workspaces.baseDirectory s source = if s.head? = some '/' then workspace else here := rfl
  refine ⟨fun hdot => ?_, fun hslash => ?_, fun hdot hslash => ⟨?_, fun hkept => ?_⟩, ?_⟩
  · obtain ⟨rest, rfl⟩ := hdot
    rw [hlocation, landing_anchored rfl, hbase, if_neg (by simp)]
  · rw [hlocation, landing_anchored (isAnchored_iff.mpr (.inr hslash)), hbase, if_pos hslash]
  · rintro rfl
    rw [hlocation, landing_eq, underRoot_nil, hbase, if_neg hslash]
  · have hfree : isAnchored payload = false :=
      Bool.eq_false_iff.mpr (mt isAnchored_iff.mp (not_or.mpr ⟨hdot, hslash⟩))
    rw [hlocation, landing_under hfree hkept, hbase]
  · exact fun target label mode hne hcanonical =>
      resolve_eq_present hne hcanonical hlink source mode

theorem slashes_behind_root_do_not_count :
    let t : NamespaceTable :=
      { NamespaceTable.default with
        roots := [("blocks", "src/cavalion-blocks"), ("comps", "src/vcl-comps"),
          ("lib", "/lib//")] }
    let r : Resolver := ⟨t, {}, .ofFolders [⟨"/ws"⟩]⟩
    t.Reachable ∧ t.root? "lib" = some "/lib//" ∧ hasProtocol "lib:guide/" = false ∧
      r.resolve ⟨"lib:guide/", "x", some ⟨"/ws/docs/page.md"⟩, .location⟩ =
        .location ⟨"/ws/lib/guide/index.md"⟩ := by
  intro t r
  have hinsert : NamespaceTable.default.insert "lib" "/lib//" = .ok t := rfl
  have ht : t.Reachable := .insert .default hinsert
  have hroot : t.root? "lib" = some "/lib//" := rfl
  have hlink : hasProtocol "lib:guide/" = false := by decide
  have hcanonical : t.expandTarget {} (Text.trimmed "lib:guide/") "x" = "lib:guide/" := by decide
  obtain ⟨-, -, hbelow, hresolve⟩ :=
    @canonical_target_lands r "lib" "/lib//" "guide/" ht hroot hlink ⟨"/ws/docs/page.md"⟩
  have hlands := (hbelow (by decide) (by decide)).2 ⟨'l', by decide, by decide⟩
  refine ⟨ht, hroot, hlink, (hresolve _ _ .location (by decide) hcanonical).trans ?_⟩
  exact congrArg Resolution.location (hlands.trans (by decide))

/-- With neither a root nor a payload nothing is joined, and so no `/` calls for the index file. -/
theorem empty_payload_without_root_is_here :
    let t : NamespaceTable :=
      { NamespaceTable.default with
        roots := [("blocks", "src/cavalion-blocks"), ("comps", "src/vcl-comps"), ("here", "")] }
    let r : Resolver := ⟨t, {}, .ofFolders [⟨"/ws"⟩]⟩
    let source : Path := ⟨"/ws/docs/page.md"⟩
    let resolved := r.resolve ⟨"here:", "", some source, .location⟩
    let belowRoot := source.sourceDirectory.joinTarget (r.options.complete ("" ++ '/' :: ""))
    t.Reachable ∧ t.root? "here" = some "" ∧ t.expandTarget {} "here:" "" = "here:" ∧
      hasProtocol "here:" = false ∧ resolved = .location ⟨"/ws/docs"⟩ ∧
      resolved ≠ .location belowRoot := by
  intro t r source resolved belowRoot
  have hinsert : NamespaceTable.default.insert "here" "" = .ok t := rfl
  exact ⟨.insert .default hinsert, rfl, by decide, by decide, by decide, by decide⟩

end Resolver
end Shorthand
