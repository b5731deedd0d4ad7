import Shorthand.Proofs.Path.Walk

/-!
Rooted paths in normal form: the root, or plain names below it with single separators between them.
What can be joined onto one that stays in normal form is read off the joined text.
-/

namespace Shorthand

/-- One plain name or more, with single separators between them. -/
def SpellsNames (s : Text) : Prop :=
  ∀ segment ∈ s.splitOn '/', IsPlainName segment

instance (s : Text) : Decidable (SpellsNames s) :=
  inferInstanceAs (Decidable (∀ segment ∈ s.splitOn '/', IsPlainName segment))

theorem not_spellsNames_nil : ¬ SpellsNames [] := by
  decide

theorem spellsNames_append_slash {a b : Text} :
    SpellsNames (a ++ '/' :: b) ↔ SpellsNames a ∧ SpellsNames b := by
  rw [SpellsNames, List.splitOn_append_cons_self, List.forall_mem_append]
  rfl

theorem spellsNames_joinWith {names : List Text} (hne : names ≠ [])
    (h : ∀ n ∈ names, IsPlainName n) : SpellsNames (Text.joinWith ['/'] names) := by
  rwa [SpellsNames, Text.joinWith, List.splitOn_intercalate '/' (fun n hn => (h n hn).2.1) hne]

/-- Names are kept as they come. -/
theorem Component.foldl_settle_names (names : List Text) (kept : List Component) :
    (names.map .name).foldl settle kept = (names.map .name).reverse ++ kept := by
  induction names generalizing kept with
  | nil => rfl
  | cons n names ih =>
      rw [List.map_cons, List.foldl_cons, ih, List.reverse_cons, List.append_assoc]
      rfl

namespace Path

theorem normalize_normalize (p : Path) : p.normalize.normalize = p.normalize :=
  normalize_eq_of_walk fun stack _ => p.walk_normalize stack

theorem IsNormal.exists_rooted {p : Path} (h : p.IsNormal) (habs : p.isAbsolute) :
    ∃ names, (∀ n ∈ names, IsPlainName n) ∧ p = ⟨'/' :: Text.joinWith ['/'] names⟩ := by
  obtain ⟨names, hnames, hrooted | ⟨steps, hclimbing⟩⟩ := h
  · exact ⟨names, hnames, congrArg Path.mk hrooted⟩
  · -- What climbs from where it starts is not rooted.
    let cs := List.replicate steps Component.parent ++ names.map Component.name
    have hcs : ∀ c ∈ cs, c.IsSegment := by
      intro c hc
      cases List.mem_append.mp hc with
      | inl hc => rw [List.eq_of_mem_replicate hc]; exact Component.isSegment_parent
      | inr hc =>
          obtain ⟨n, hn, rfl⟩ := List.mem_map.mp hc
          exact Component.isSegment_name_iff.mpr (hnames n hn)
    have htext : p.text = Text.joinWith ['/'] (cs.map Component.text) := by
      simp [hclimbing, cs, Component.text, Function.comp_def]
    have hhead := Component.head?_joinWith hcs
    rw [← htext] at hhead
    simp [isAbsolute, hhead] at habs

theorem normalize_rooted_eq_self_iff {s : Text} :
    normalize ⟨'/' :: s⟩ = ⟨'/' :: s⟩ ↔ s = [] ∨ SpellsNames s := by
  constructor
  · intro h
    have hnormal : IsNormal ⟨'/' :: s⟩ := h ▸ isNormal_normalize ⟨'/' :: s⟩
    obtain ⟨names, hnames, hs⟩ := hnormal.exists_rooted rfl
    cases hs
    by_cases hne : names = []
    · exact .inl (by rw [hne]; rfl)
    · exact .inr (spellsNames_joinWith hne hnames)
  · intro h
    cases h with
    | inl hnil => rw [hnil]; rfl
    | inr hnames =>
        have hread : Component.read s = (s.splitOn '/').map .name :=
          List.filterMap_eq_map_iff_forall_eq_some.mpr fun n hn =>
            (Component.isSegment_name_iff.mpr (hnames n hn)).2
        have hkept : (components ⟨'/' :: s⟩).foldl Component.settle [] =
            ((s.splitOn '/').map .name).reverse ++ [.root] := by
          rw [components_rooted, hread, List.foldl_cons]
          exact Component.foldl_settle_names _ _
        have htexts : ((s.splitOn '/').map Component.name).map Component.text = s.splitOn '/' := by
          simp [Component.text, Function.comp_def]
        rw [normalize, hkept, List.reverse_append, List.reverse_reverse, List.reverse_singleton,
          List.singleton_append, ofComponents, htexts, Text.joinWith, List.intercalate_splitOn]

/-- Whether a directory in normal form stays so with a text joined onto it. A rooted text replaces
the directory, and an empty one leaves a separator at the end of any but the root. -/
def StaysNormal (directory : Path) (s : Text) : Prop :=
  if s.head? = some '/' then s.tail = [] ∨ SpellsNames s.tail
  else SpellsNames s ∨ s = [] ∧ directory = ⟨['/']⟩

instance (directory : Path) (s : Text) : Decidable (directory.StaysNormal s) :=
  inferInstanceAs (Decidable (if s.head? = some '/' then s.tail = [] ∨ SpellsNames s.tail
    else SpellsNames s ∨ s = [] ∧ directory = ⟨['/']⟩))

theorem normalize_join_eq_self_iff {directory : Path} (habs : directory.isAbsolute)
    (h : directory.normalize = directory) {s : Text} :
    (directory.join s).normalize = directory.join s ↔ directory.StaysNormal s := by
  obtain ⟨text, rfl⟩ := exists_of_isAbsolute habs
  unfold StaysNormal
  split
  · rename_i hhead
    obtain ⟨rest, rfl⟩ := List.head?_eq_some_iff.mp hhead
    exact normalize_rooted_eq_self_iff
  · rename_i hhead
    cases normalize_rooted_eq_self_iff.mp h with
    | inl hroot =>
        have hjoin : join ⟨'/' :: text⟩ s = ⟨'/' :: s⟩ := by simp [join, hroot, hhead]
        rw [hjoin, normalize_rooted_eq_self_iff, or_comm]
        simp [hroot]
    | inr hnames =>
        have hne : text ≠ [] := fun hnil => not_spellsNames_nil (hnil ▸ hnames)
        have hlast : text.getLast? ≠ some '/' := by
          intro hl
          obtain ⟨init, rfl⟩ := List.getLast?_eq_some_iff.mp hl
          exact not_spellsNames_nil (spellsNames_append_slash.mp hnames).2
        have hjoin : join ⟨'/' :: text⟩ s = ⟨'/' :: (text ++ '/' :: s)⟩ := by
          rw [join, if_neg hhead, if_neg (by simp [List.getLast?_cons_of_ne_nil hne, hlast])]
          rfl
        rw [hjoin, normalize_rooted_eq_self_iff, spellsNames_append_slash]
        simp [hnames, hne]

end Path

end Shorthand
