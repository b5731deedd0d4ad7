import Shorthand.Proofs.Link.Moving
import Shorthand.Proofs.Resolve.Footprint
import Shorthand.Proofs.Resolve.Location

/-!
Resolution after a namespace has been renamed. A link that is moved along leads where it led, unless
it is in a wrapper that has stayed on the old name, or two slashes follow the name and make it a
URL, with the old name or with the new one.
-/

namespace Shorthand

variable {old new target label : Text}

namespace Text

theorem moved_name {name : Text} (hold : Namespace.IsName old) (hname : Namespace.IsName name)
    (payload : Text) :
    moved old new (name ++ ':' :: payload) =
      (if name = old then new else name) ++ ':' :: payload := by
  split
  · rename_i heq
    rw [heq, moved_append]
  · rename_i hne
    refine moved_eq_self fun h => hne ?_
    obtain ⟨more, hmore⟩ := h
    rw [List.append_assoc] at hmore
    exact (eq_of_append_cons (hold.not_mem (by decide)) (hname.not_mem (by decide)) hmore).1.symm

end Text

namespace NamespaceTable

/-- The table after a namespace has been renamed. The old name may still be registered: it then has
the root that is built in, and there may be wrappers that have stayed on it. -/
structure IsRenaming (t t' : NamespaceTable) (old new : Text) : Prop where
  wellFormed : t.WellFormed
  wellFormed_later : t'.WellFormed
  isName_new : Namespace.IsName new
  registered : t.roots.has old = true
  unregistered : t.roots.has new = false
  root?_old : t'.root? old = default.root? old
  root?_new : t'.root? new = t.root? old
  root?_other : ∀ n, n ≠ old → n ≠ new → t'.root? n = t.root? n
  wrapperNamespace?_cases : ∀ w,
    t.wrapperNamespace? w = some old ∧ t'.wrapperNamespace? w = some old ∨
      t'.wrapperNamespace? w = (t.wrapperNamespace? w).map fun n => if n = old then new else n
  rootDefault : t'.rootDefault = t.rootDefault

end NamespaceTable

namespace Text

/-- A target that does not use the new name, and the same target moved to it. -/
structure Moves (old new target target' : Text) : Prop where
  fresh : ¬ new ++ [':'] <+: target
  eq : target' = moved old new target

/-- Canonical forms with two slashes behind the old and behind the new name. At least one of the
names is made of letters, and a form with such a name is a URL. -/
structure SwitchesScheme (old new target target' : Text) : Prop where
  isScheme : IsScheme old ∨ IsScheme new
  before : old ++ [':', '/', '/'] <+: target
  after : new ++ [':', '/', '/'] <+: target'

theorem Moves.switchesScheme {target' : Text} (h : Moves old new target target')
    (hscheme : IsScheme old ∨ IsScheme new) (hbefore : old ++ [':', '/', '/'] <+: target) :
    SwitchesScheme old new target target' := by
  refine ⟨hscheme, hbefore, ?_⟩
  obtain ⟨rest, rfl⟩ := hbefore
  rw [h.eq, List.append_assoc]
  exact ⟨rest, (List.append_assoc ..).trans (moved_append old new ('/' :: '/' :: rest)).symm⟩

end Text

namespace NamespaceTable

variable {t t' : NamespaceTable} {options : Options} {w : Wrapper} {name payload target' : Text}

namespace IsRenaming

theorem isName_old (h : t.IsRenaming t' old new) : Namespace.IsName old :=
  h.wellFormed.isName h.registered

theorem ne (h : t.IsRenaming t' old new) : new ≠ old := by
  intro heq
  have hunregistered := h.unregistered
  rw [heq, h.registered] at hunregistered
  contradiction

theorem moves_same (h : ¬ old ++ [':'] <+: target) (hnew : ¬ new ++ [':'] <+: target) :
    Text.Moves old new target target :=
  ⟨hnew, (Text.moved_eq_self h).symm⟩

theorem moves_name (h : t.IsRenaming t' old new) (hname : t.roots.has name = true)
    (payload : Text) :
    Text.Moves old new (name ++ ':' :: payload)
      ((if name = old then new else name) ++ ':' :: payload) := by
  have hisName := h.wellFormed.isName hname
  refine ⟨?_, (Text.moved_name h.isName_old hisName payload).symm⟩
  rintro ⟨more, hmore⟩
  rw [List.append_assoc] at hmore
  obtain ⟨rfl, -⟩ := Text.eq_of_append_cons (h.isName_new.not_mem (by decide))
    (hisName.not_mem (by decide)) hmore
  rw [h.unregistered] at hname
  contradiction

theorem wrapperNamespace?_eq (h : t.IsRenaming t' old new)
    (hleft : t'.wrapperNamespace? w ≠ some old) :
    t'.wrapperNamespace? w = (t.wrapperNamespace? w).map fun n => if n = old then new else n :=
  (h.wrapperNamespace?_cases w).resolve_left fun hstayed => hleft hstayed.2

theorem moves_inWrapper (h : t.IsRenaming t' old new) (hleft : t'.wrapperNamespace? w ≠ some old)
    (hold : ¬ old ++ [':'] <+: target) (hnew : ¬ new ++ [':'] <+: target) :
    Text.Moves old new (t.inWrapper w payload target) (t'.inWrapper w payload target) := by
  unfold inWrapper
  rw [h.wrapperNamespace?_eq hleft]
  cases hw : t.wrapperNamespace? w with
  | none => exact moves_same hold hnew
  | some name => exact h.moves_name (h.wellFormed.registered hw) payload

/-- A moved target uses the old namespace only if it is in a wrapper that has stayed on it. -/
theorem stayed_of_uses (h : t.IsRenaming t' old new)
    (huses : t'.Uses old (Text.moved old new target)) :
    ¬ old ++ [':'] <+: target ∧ ∃ w payload, target = w.wrap payload ∧
      t.wrapperNamespace? w = some old ∧ t'.wrapperNamespace? w = some old := by
  by_cases hold : old ++ [':'] <+: target
  · obtain ⟨payload, rfl⟩ := hold
    rw [List.append_assoc, List.singleton_append, Text.moved_append] at huses
    rcases huses with ⟨more, hmore⟩ | ⟨w, wrapped, -, hwrapped⟩
    · rw [List.append_assoc] at hmore
      exact absurd (Text.eq_of_append_cons (h.isName_old.not_mem (by decide))
        (h.isName_new.not_mem (by decide)) hmore).1.symm h.ne
    · exact absurd hwrapped (h.isName_new.ne_wrap w _ _)
  · rw [Text.moved_eq_self hold] at huses
    obtain ⟨w, payload, hlater, htarget⟩ := huses.resolve_left hold
    refine ⟨hold, w, payload, htarget, ?_, hlater⟩
    rcases h.wrapperNamespace?_cases w with ⟨hstayed, -⟩ | hmoved
    · exact hstayed
    · rw [hlater, eq_comm, Option.map_eq_some_iff] at hmoved
      obtain ⟨n, -, hn⟩ := hmoved
      split at hn
      · exact absurd hn h.ne
      · contradiction

/-- A moved target expands to what the target expanded to, moved. -/
theorem moves_expand (h : t.IsRenaming t' old new) (ht : Text.Moves old new target target')
    (hunused : ¬ t'.Uses old target') :
    Text.Moves old new (t.expand target) (t'.expand target') := by
  obtain ⟨hfresh, rfl⟩ := ht
  have hdelimited {c : Char} (hc : Namespace.isNameChar c = false) (rest : Text) :
      Text.Moves old new (c :: rest) (c :: rest) :=
    moves_same (not_prefix_of_delimiter h.isName_old hc rest)
      (not_prefix_of_delimiter h.isName_new hc rest)
  by_cases hold : old ++ [':'] <+: target
  · obtain ⟨payload, rfl⟩ := hold
    rw [List.append_assoc, List.singleton_append] at hfresh ⊢
    rw [Text.moved_append, expand_name t h.isName_old, expand_name t' h.isName_new]
    have hmoves := h.moves_name h.registered payload
    rwa [if_pos rfl] at hmoves
  · rw [Text.moved_eq_self hold] at hunused ⊢
    rcases expand_cases target with hsame | ⟨w, -, hempty⟩ | hbraces | ⟨w, _, payload, hw, hplaced⟩
    · rw [hsame, hsame]
      exact moves_same hold hfresh
    · rw [hempty, hempty]
      exact hdelimited w.isNameChar_opener _
    · rw [hbraces, hbraces]
      exact hdelimited (by decide) _
    · rw [hplaced, hplaced]
      exact h.moves_inWrapper (fun hleft => hunused (.inr ⟨w, _, hleft, hw⟩)) hold hfresh

theorem registered_new (h : t.IsRenaming t' old new) : t'.roots.has new = true := by
  have hroot := h.root?_new
  simp only [root?] at hroot
  rw [Registry.has, hroot]
  exact h.registered

/-- A target that names neither of the two namespaces finds the roots that it found before. -/
theorem root?_eq (h : t.IsRenaming t' old new) (hold : ¬ old ++ [':'] <+: target)
    (hnew : ¬ new ++ [':'] <+: target) :
    ∀ name, name ++ [':'] <+: target → t'.root? name = t.root? name := by
  intro name hname
  exact h.root?_other name (fun heq => hold (heq ▸ hname)) fun heq => hnew (heq ▸ hname)

theorem moves_expandPlaceholder (h : t.IsRenaming t' old new) {expanded : Text}
    (hleft : ∀ w : Wrapper, expanded = w.wrap [':'] → t'.wrapperNamespace? w ≠ some old)
    (hold : ¬ old ++ [':'] <+: target) (hnew : ¬ new ++ [':'] <+: target) :
    Text.Moves old new (t.expandPlaceholder expanded target)
      (t'.expandPlaceholder expanded target) := by
  unfold expandPlaceholder
  split
  · rename_i w hfound
    have hw := List.find?_some hfound
    rw [Bool.and_eq_true, decide_eq_true_eq] at hw
    exact h.moves_inWrapper (hleft w hw.1) hold hnew
  · exact moves_same hold hnew

/-- With the label put in, a payload stands behind the new name as it stands behind the old one,
unless one of the names makes up a URL with it. -/
theorem moves_substituteColon (h : t.IsRenaming t' old new) (options : Options)
    (payload label : Text) :
    let canonical := t.substituteColon options (old ++ ':' :: payload) label
    let canonical' := t'.substituteColon options (new ++ ':' :: payload) label
    Text.Moves old new canonical canonical' ∨ Text.SwitchesScheme old new canonical canonical' := by
  intro canonical canonical'
  by_cases hurl : (IsScheme old ∨ IsScheme new) ∧ ['/', '/'] <+: payload
  · exact .inr ⟨hurl.1, prefix_substituteColon h.isName_old h.registered hurl.2,
      prefix_substituteColon h.isName_new h.registered_new hurl.2⟩
  · left
    have hcanonical : canonical = old ++ ':' :: filled payload label :=
      substituteColon_name h.isName_old h.registered
        (schemeLength?_name h.isName_old fun hs => hurl ⟨.inl hs.1, hs.2⟩)
    have hcanonical' : canonical' = new ++ ':' :: filled payload label :=
      substituteColon_name h.isName_new h.registered_new
        (schemeLength?_name h.isName_new fun hs => hurl ⟨.inr hs.1, hs.2⟩)
    have hmoves := h.moves_name h.registered (filled payload label)
    rwa [if_pos rfl, ← hcanonical, ← hcanonical'] at hmoves

/-- The canonical form of a moved target is that of the target, moved, unless the two read like
URLs. -/
theorem moves_expandTarget (h : t.IsRenaming t' old new) (ht : Text.Moves old new target target')
    (hlabel : ':' ∉ label) (hunused : ¬ t'.Uses old target') :
    let canonical := t.expandTarget options target label
    let canonical' := t'.expandTarget options target' label
    Text.Moves old new canonical canonical' ∨ Text.SwitchesScheme old new canonical canonical' := by
  intro canonical canonical'
  obtain ⟨hfresh, hmoved⟩ := h.moves_expand ht hunused
  by_cases hold : old ++ [':'] <+: t.expand target
  · obtain ⟨payload, hpayload⟩ := hold
    rw [List.append_assoc, List.singleton_append] at hpayload
    rw [← hpayload, Text.moved_append] at hmoved
    have hcanonical : canonical = t.substituteColon options (old ++ ':' :: payload) label := by
      rw [← t.expandTarget_eq_substituteColon (h.isName_old.head?_ne_delimiter _)]
      exact expandTarget_congr (hpayload.symm.trans (expand_name t h.isName_old _).symm) _ _
    have hcanonical' : canonical' = t'.substituteColon options (new ++ ':' :: payload) label := by
      rw [← t'.expandTarget_eq_substituteColon (h.isName_new.head?_ne_delimiter _)]
      exact expandTarget_congr (hmoved.trans (expand_name t' h.isName_new _).symm) _ _
    rw [hcanonical, hcanonical']
    exact h.moves_substituteColon options payload label
  · left
    rw [Text.moved_eq_self hold] at hmoved
    have hleft (w : Wrapper) (hw : t.expand target = w.wrap [':']) :
        t'.wrapperNamespace? w ≠ some old := by
      obtain ⟨payload, hpayload⟩ := exists_of_expand_eq_wrap h.wellFormed_later (hmoved.trans hw)
      exact fun hstayed => hunused (.inr ⟨w, payload, hstayed, hpayload⟩)
    simp only [canonical, canonical', expandTarget, hmoved]
    rw [substituteColon_congr fun name hname => has_eq_of_root? (h.root?_eq hold hfresh name hname)]
    exact h.moves_expandPlaceholder hleft (mt (prefix_of_prefix_substituteColon hlabel) hold)
      (mt (prefix_of_prefix_substituteColon hlabel) hfresh)

/-- A moved canonical form lies where the form lies. -/
theorem place_eq (h : t.IsRenaming t' old new) (ht : Text.Moves old new target target') :
    t'.place target' = t.place target := by
  obtain ⟨hfresh, rfl⟩ := ht
  by_cases hold : old ++ [':'] <+: target
  · obtain ⟨payload, rfl⟩ := hold
    rw [List.append_assoc, List.singleton_append, Text.moved_append]
    simp only [place, splitPrefix?_name h.isName_old h.registered,
      splitPrefix?_name h.isName_new h.registered_new, h.root?_new]
  · rw [Text.moved_eq_self hold]
    exact place_congr h.rootDefault (h.root?_eq hold hfresh)

theorem hasProtocol_eq (h : t.IsRenaming t' old new) (ht : Text.Moves old new target target')
    (hurl : ¬ Text.SwitchesScheme old new target target') :
    (hasProtocol target = true → target' = target) ∧ hasProtocol target' = hasProtocol target := by
  by_cases hold : old ++ [':'] <+: target
  · obtain ⟨payload, hpayload⟩ := hold
    rw [List.append_assoc, List.singleton_append] at hpayload
    have hslashes (hscheme : IsScheme old ∨ IsScheme new) : ¬ ['/', '/'] <+: payload := by
      rintro ⟨rest, rfl⟩
      exact hurl (ht.switchesScheme hscheme ⟨rest, by simp [← hpayload]⟩)
    have hprotocol {n : Text} (hn : Namespace.IsName n)
        (hscheme : IsScheme n → IsScheme old ∨ IsScheme new) :
        hasProtocol (n ++ ':' :: payload) = false :=
      Bool.eq_false_iff.mpr (mt (hasProtocol_name_iff hn).mp fun hs => hslashes (hscheme hs.1) hs.2)
    rw [ht.eq, ← hpayload, Text.moved_append, hprotocol h.isName_old .inl,
      hprotocol h.isName_new .inr]
    exact ⟨nofun, rfl⟩
  · rw [ht.eq, Text.moved_eq_self hold]
    exact ⟨fun _ => rfl, rfl⟩

end IsRenaming
end NamespaceTable

namespace Link

theorem IsTarget.isBlank_eq_false (h : IsTarget target) : ∀ c ∈ target, Text.isBlank c = false := by
  induction h with
  | nil => nofun
  | plain hc _ ih => exact List.forall_mem_cons.mpr ⟨hc.2.2, ih⟩
  | group hg _ ih =>
      exact List.forall_mem_cons.mpr ⟨by decide, List.forall_mem_append.mpr
        ⟨fun c hc => (hg c hc).2.2, List.forall_mem_cons.mpr ⟨by decide, ih⟩⟩⟩

theorem IsTarget.trimmed (h : IsTarget target) : target.trimmed = target :=
  Text.trimmed_eq_self (fun _ hc => h.isBlank_eq_false _ (List.mem_of_head? hc))
    fun _ hc => h.isBlank_eq_false _ (List.mem_of_getLast? hc)

end Link

theorem Text.moved_eq_nil_iff : Text.moved old new target = [] ↔ target = [] := by
  by_cases hold : old ++ [':'] <+: target
  · obtain ⟨payload, rfl⟩ := hold
    rw [List.append_assoc, List.singleton_append, Text.moved_append]
    simp
  · rw [Text.moved_eq_self hold]

namespace Resolver

variable {r r' : Resolver}

/-- A link, moved along with its namespace, leads where it led, unless its wrapper has not moved
along or its canonical form is a URL. -/
theorem resolve_moved (h : r.table.IsRenaming r'.table old new) (hoptions : r'.options = r.options)
    (hworkspaces : r'.workspaces = r.workspaces) {l : Link} (hl : l.IsLink) (hlabel : ':' ∉ l.label)
    (hnew : ¬ new ++ [':'] <+: l.target) (hunused : ¬ r'.table.Uses old (l.moved old new).target)
    (hurl : ¬ Text.SwitchesScheme old new (r.table.expandTarget r.options l.target l.label)
      (r'.table.expandTarget r'.options (l.moved old new).target l.label))
    (source : Option Path) (mode : Mode) :
    r'.resolve ⟨(l.moved old new).target, l.label, source, mode⟩ =
      r.resolve ⟨l.target, l.label, source, mode⟩ := by
  rw [hoptions] at hurl
  have hl' : (l.moved old new).IsLink := hl.moved h.isName_old h.isName_new
  have hmoves : Text.Moves old new l.target (l.moved old new).target := ⟨hnew, rfl⟩
  have hcanonical := (h.moves_expandTarget hmoves hlabel hunused).resolve_right hurl
  obtain ⟨hsame, hprotocol⟩ := h.hasProtocol_eq hcanonical hurl
  simp only [resolve, hl.isTarget.trimmed, hl'.isTarget.trimmed, hoptions, hworkspaces]
  by_cases hnil : l.target = []
  · have hnil' : (l.moved old new).target = [] := Text.moved_eq_nil_iff.mpr hnil
    rw [if_pos hnil, if_pos hnil']
  · have hnil' : (l.moved old new).target ≠ [] := mt Text.moved_eq_nil_iff.mp hnil
    rw [if_neg hnil, if_neg hnil']
    by_cases hp : hasProtocol (r.table.expandTarget r.options l.target l.label) = true
    · rw [if_pos hp, if_pos (hprotocol.trans hp), hsame hp]
    · have hp' := hp
      rw [← hprotocol] at hp'
      have hplace : r'.table.applyDefaults r.options
            (r'.table.expandTarget r.options (l.moved old new).target l.label) =
          r.table.applyDefaults r.options (r.table.expandTarget r.options l.target l.label) := by
        simp only [NamespaceTable.applyDefaults, hp, hp', h.place_eq hcanonical]
        rfl
      rw [if_neg hp, if_neg hp']
      simp only [locate, hoptions, hworkspaces, hplace]

end Resolver
end Shorthand
