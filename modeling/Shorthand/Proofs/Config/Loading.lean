import Shorthand.Config
import Shorthand.Proofs.Config.Settings
import Shorthand.Proofs.Fallible
import Shorthand.Proofs.Registry

/-!
When settings make a configuration, and which. The wrappers are checked against the namespaces that
are built in or configured.
-/

namespace Shorthand
open Toml

theorem Wrapper.ofKey?_eq_some_iff {key : Text} {w : Wrapper} :
    ofKey? key = some w ↔ w.key = key := by
  constructor
  · intro h
    simpa using List.find?_some h
  · rintro rfl
    cases w <;> decide

theorem Wrapper.key_inj {w w' : Wrapper} : w.key = w'.key ↔ w = w' := by
  cases w <;> cases w' <;> decide

namespace NamespaceTable

/-- The families with the namespaces that they are pointed at. -/
def withWrappers (t : NamespaceTable) (wrappers : Registry) : NamespaceTable :=
  { t with
    brackets := (wrappers.get? Wrapper.brackets.key).or t.brackets
    parens := (wrappers.get? Wrapper.parens.key).or t.parens }

theorem wrapperNamespace?_withWrappers (t : NamespaceTable) (wrappers : Registry) (w : Wrapper) :
    (t.withWrappers wrappers).wrapperNamespace? w =
      (wrappers.get? w.key).or (t.wrapperNamespace? w) := by
  cases w <;> rfl

theorem withWrappers_singleton (t : NamespaceTable) (w : Wrapper) (name : Text) :
    t.withWrappers [(w.key, name)] = match w with
      | .brackets => { t with brackets := some name }
      | .parens => { t with parens := some name } := by
  cases w <;> simp [withWrappers, Registry.get?, Wrapper.key_inj]

theorem setWrapper_eq_ok_iff {t t' : NamespaceTable} {w : Wrapper} {name : Text} :
    t.setWrapper w name = .ok t' ↔
      t.roots.has name = true ∧ t' = t.withWrappers [(w.key, name)] := by
  rw [withWrappers_singleton]
  unfold setWrapper
  split
  · rename_i hname
    simp only [hname, true_and, Except.ok.injEq]
    exact eq_comm
  · rename_i hname
    simp [hname]

theorem withWrappers_cons {t : NamespaceTable} {p : Text × Text} {wrappers : Registry}
    (h : p.1 ∉ wrappers.names) :
    (t.withWrappers [p]).withWrappers wrappers = t.withWrappers (p :: wrappers) := by
  have hvalue {key : Text} {o : Option Text} :
      (wrappers.get? key).or ((Registry.get? key [p]).or o) =
        (Registry.get? key (p :: wrappers)).or o := by
    simp only [Registry.get?]
    by_cases hkey : p.1 = key
    · rw [if_pos hkey, if_pos hkey, ← hkey, Registry.get?_eq_none_iff.mpr h]
      rfl
    · rw [if_neg hkey, if_neg hkey]
      rfl
  simp only [withWrappers, hvalue]

end NamespaceTable

namespace Settings

/-- Names are valid, and wrappers are known and stand for namespaces. -/
structure IsConsistent (s : Settings) : Prop where
  isName : ∀ p ∈ s.namespaces, Namespace.IsName p.1
  isWrapper : ∀ p ∈ s.wrappers, ∃ w : Wrapper, w.key = p.1
  registered : ∀ p ∈ s.wrappers,
    Registry.has p.2 (Registry.putAll s.namespaces NamespaceTable.default.roots) = true

def table (s : Settings) : NamespaceTable :=
  NamespaceTable.withWrappers { NamespaceTable.default with
    roots := Registry.putAll s.namespaces NamespaceTable.default.roots } s.wrappers

def config (s : Settings) : Config where
  included := s.included
  excluded := s.excluded
  table := s.table
  options := {
    indexFile := s.indexFile.getD ({} : Options).indexFile
    urlPlaceholders := s.urlPlaceholders.getD ({} : Options).urlPlaceholders }
  workspaces := s.workspaces.getD ({} : Config).workspaces

end Settings

namespace Config

variable {file : Path} {t t' : NamespaceTable} {c : Config} {s : Settings}

theorem addNamespaces_eq_ok_iff {namespaces : Registry} :
    addNamespaces t namespaces = .ok t' ↔ (∀ p ∈ namespaces, Namespace.IsName p.1) ∧
      t' = { t with roots := Registry.putAll namespaces t.roots } := by
  induction namespaces generalizing t with
  | nil => simp [addNamespaces, Registry.putAll, pure, Except.pure, eq_comm]
  | cons p namespaces ih =>
      rw [addNamespaces, List.foldlM_cons, bind_eq_ok_iff, List.forall_mem_cons,
        ← Namespace.nameFault?_eq_none_iff]
      simp only [NamespaceTable.insert]
      change (∃ t₁, _ ∧ addNamespaces t₁ namespaces = .ok t') ↔ _
      split
      · rename_i hfault
        simp [hfault]
      · rename_i hfault
        simp [hfault, ih, Registry.putAll]

theorem setWrappers_eq_ok_iff {wrappers : Registry} (hnames : wrappers.names.Nodup) :
    setWrappers file t wrappers = .ok t' ↔ (∀ p ∈ wrappers, ∃ w : Wrapper, w.key = p.1) ∧
      (∀ p ∈ wrappers, t.roots.has p.2 = true) ∧ t' = t.withWrappers wrappers := by
  induction wrappers generalizing t with
  | nil =>
      have hnil : t.withWrappers [] = t := rfl
      simp only [hnil, List.not_mem_nil, false_implies, implies_true, true_and]
      exact ⟨fun h => by cases h; rfl, fun h => h ▸ rfl⟩
  | cons p wrappers ih =>
      obtain ⟨hp, hwrappers⟩ := List.nodup_cons.mp hnames
      rw [setWrappers, List.foldlM_cons, bind_eq_ok_iff, List.forall_mem_cons,
        List.forall_mem_cons]
      change (∃ t₁, _ ∧ setWrappers file t₁ wrappers = .ok t') ↔ _
      simp only [ih hwrappers]
      cases hkey : Wrapper.ofKey? p.1 with
      | none =>
          have hnone : ¬ ∃ w : Wrapper, w.key = p.1 := by
            rintro ⟨w, hw⟩
            rw [Wrapper.ofKey?_eq_some_iff.mpr hw] at hkey
            contradiction
          simp [hnone]
      | some w =>
          have hw := Wrapper.ofKey?_eq_some_iff.mp hkey
          have hwith : t.withWrappers [(w.key, p.2)] = t.withWrappers [p] := by rw [hw]
          simp only [NamespaceTable.setWrapper_eq_ok_iff, hwith]
          constructor
          · rintro ⟨t₁, ⟨hname, rfl⟩, hkeys, hnames, rfl⟩
            exact ⟨⟨⟨w, hw⟩, hkeys⟩, ⟨hname, hnames⟩, NamespaceTable.withWrappers_cons hp⟩
          · rintro ⟨⟨-, hkeys⟩, ⟨hname, hnames⟩, rfl⟩
            exact ⟨_, ⟨hname, rfl⟩, hkeys, hnames, (NamespaceTable.withWrappers_cons hp).symm⟩

/-- Wrappers that are known can only fail for a namespace that is not registered. -/
theorem exists_of_setWrappers_eq_error {wrappers : Registry} {e : Error}
    (hkeys : ∀ p ∈ wrappers, ∃ w : Wrapper, w.key = p.1)
    (h : setWrappers file t wrappers = .error e) :
    ∃ p ∈ wrappers, t.roots.has p.2 = false ∧ e = .unknownNamespace p.2 := by
  induction wrappers generalizing t with
  | nil => contradiction
  | cons p wrappers ih =>
      obtain ⟨⟨w, hw⟩, hkeys⟩ := List.forall_mem_cons.mp hkeys
      rw [setWrappers, List.foldlM_cons, bind_eq_error_iff] at h
      simp only [Wrapper.ofKey?_eq_some_iff.mpr hw] at h
      rcases h with hfirst | ⟨t₁, hfirst, hrest⟩
      · refine ⟨p, List.mem_cons_self, ?_⟩
        unfold NamespaceTable.setWrapper at hfirst
        split at hfirst
        · contradiction
        · rename_i hname
          cases hfirst
          exact ⟨Bool.eq_false_iff.mpr hname, rfl⟩
      · obtain ⟨-, rfl⟩ := NamespaceTable.setWrapper_eq_ok_iff.mp hfirst
        obtain ⟨q, hq, hfault⟩ := ih hkeys hrest
        exact ⟨q, List.mem_cons_of_mem _ hq, hfault⟩

/-- Settings with valid names and known wrappers are only refused for a wrapper that stands for no
namespace. -/
theorem exists_of_ofSettings_eq_error {e : Error}
    (hisName : ∀ p ∈ s.namespaces, Namespace.IsName p.1)
    (hisWrapper : ∀ p ∈ s.wrappers, ∃ w : Wrapper, w.key = p.1) (h : ofSettings file s = .error e) :
    ∃ p ∈ s.wrappers, e = .unknownNamespace p.2 ∧
      Registry.has p.2 (Registry.putAll s.namespaces NamespaceTable.default.roots) = false := by
  have hnamed := addNamespaces_eq_ok_iff (t := .default).mpr ⟨hisName, rfl⟩
  rcases bind_eq_error_iff.mp h with h | ⟨named, hok, h⟩
  · rw [hnamed] at h
    contradiction
  · cases hnamed.symm.trans hok
    rcases bind_eq_error_iff.mp h with h | ⟨table, -, h⟩
    · obtain ⟨p, hp, hunregistered, he⟩ := exists_of_setWrappers_eq_error hisWrapper h
      exact ⟨p, hp, he, hunregistered⟩
    · contradiction

/-- Settings that are consistent make one configuration, and others none. -/
theorem ofSettings_eq_ok_iff (hnames : s.wrappers.names.Nodup) :
    ofSettings file s = .ok c ↔ s.IsConsistent ∧ c = s.config := by
  unfold ofSettings
  simp only [bind_eq_ok_iff, addNamespaces_eq_ok_iff, setWrappers_eq_ok_iff hnames]
  constructor
  · rintro ⟨named, ⟨hisName, rfl⟩, table, ⟨hisWrapper, hregistered, rfl⟩, h⟩
    cases h
    exact ⟨⟨hisName, hisWrapper, hregistered⟩, rfl⟩
  · rintro ⟨⟨hisName, hisWrapper, hregistered⟩, rfl⟩
    exact ⟨_, ⟨hisName, rfl⟩, _, ⟨hisWrapper, hregistered, rfl⟩, rfl⟩

end Config

namespace Settings

variable {s : Settings} {d : Document} {i : Item} {pairs : List (Text × Text)}

theorem pairs_names_nodup (hi : i.Sound) (h : i.plain? = some (.table pairs)) :
    (Registry.names pairs).Nodup := by
  cases hi with
  | @scalar value => cases value <;> cases h
  | array | tables =>
      first
      | contradiction
      | obtain ⟨_, -, hl⟩ := Option.map_eq_some_iff.mp h
        cases hl
  | @inline dotted opening es d hopening hnames | @table head es hhead hnames =>
      obtain ⟨pairs', hpairs, heq⟩ := Option.map_eq_some_iff.mp h
      cases heq
      change (pairs.map Prod.fst).Nodup
      rw [Entries.pairs?_map_fst hpairs]
      exact hnames

theorem registryOf_perm (h : (Registry.names pairs).Nodup) : (registryOf pairs).Perm pairs :=
  Registry.putAll_perm (r := []) (by simpa [Registry.names] using h)

theorem registryOf_names_nodup (h : (Registry.names pairs).Nodup) :
    (registryOf pairs).names.Nodup :=
  ((registryOf_perm h).map _).nodup_iff.mpr h

theorem mem_registryOf (h : (Registry.names pairs).Nodup) {p : Text × Text} :
    p ∈ registryOf pairs ↔ p ∈ pairs :=
  (registryOf_perm h).mem_iff

theorem mem_names_registryOf (h : (Registry.names pairs).Nodup) {name : Text} :
    name ∈ (registryOf pairs).names ↔ name ∈ Registry.names pairs :=
  ((registryOf_perm h).map _).mem_iff

theorem has_roots_iff (hs : s.namespaces = registryOf pairs) (hnames : (Registry.names pairs).Nodup)
    (name : Text) :
    Registry.has name (Registry.putAll s.namespaces NamespaceTable.default.roots) = true ↔
      name ∈ Registry.names pairs ∨ Namespace.isBuiltin name = true := by
  rw [hs, Registry.has_putAll (registryOf_names_nodup hnames), mem_names_registryOf hnames,
    Namespace.isBuiltin, List.contains_iff_mem]
  rfl

/-- A wrapper may stand for the namespaces of the file and those that are built in. -/
theorem isConsistent_iff (hs : s.namespaces = registryOf pairs)
    (hnames : (Registry.names pairs).Nodup) : s.IsConsistent ↔
      (∀ p ∈ pairs, Namespace.IsName p.1) ∧ (∀ p ∈ s.wrappers, ∃ w : Wrapper, w.key = p.1) ∧
        ∀ p ∈ s.wrappers, p.2 ∈ Registry.names pairs ∨ Namespace.isBuiltin p.2 = true := by
  have hhas := has_roots_iff hs hnames
  have hmem {p : Text × Text} : p ∈ s.namespaces ↔ p ∈ pairs := by
    rw [hs, mem_registryOf hnames]
  constructor
  · rintro ⟨hisName, hisWrapper, hregistered⟩
    exact ⟨fun p hp => hisName p (hmem.mpr hp), hisWrapper, fun p hp =>
      (hhas p.2).mp (hregistered p hp)⟩
  · rintro ⟨hisName, hisWrapper, hregistered⟩
    exact ⟨fun p hp => hisName p (hmem.mp hp), hisWrapper, fun p hp =>
      (hhas p.2).mpr (hregistered p hp)⟩

theorem registryOf?_ordered {r : Registry} (h : registryOf? i = some r) : r.Ordered := by
  rcases plain?_of_registryOf? h with hplain | ⟨spelling, rfl⟩
  · obtain ⟨p, hp⟩ := Option.isSome_iff_exists.mp hplain
    rw [registryOf?_of_plain? hp] at h
    cases p with
    | table pairs =>
        cases h
        exact Registry.Ordered.putAll .nil pairs
    | text | boolean | texts => contradiction
  · exact List.pairwise_singleton ..

/-- The names of a registry that is read, or left out, are in order, so that none is there twice. -/
theorem ordered_of_value? {r : Registry} {o : Option Item} (h : value? registryOf? [] o = some r) :
    r.Ordered := by
  cases o with
  | none =>
      cases h
      exact .nil
  | some i => exact registryOf?_ordered h

/-- What the content of a file is read as. -/
def ofContent? (content : Text) : Option Settings :=
  (Document.parse content).toOption.bind ofDocument?

theorem ofContent?_eq_some_iff {content : Text} :
    ofContent? content = some s ↔ ∃ d, Document.parse content = .ok d ∧ ofDocument? d = some s := by
  unfold ofContent?
  cases Document.parse content with
  | error fault => exact ⟨nofun, fun ⟨_, h, _⟩ => nomatch h⟩
  | ok d => exact ⟨fun h => ⟨d, rfl, h⟩, fun ⟨_, h, hs⟩ => by cases h; exact hs⟩

theorem gives_of_ofContent? {content : Text} (h : ofContent? content = some s) :
    ∃ es, Gives {} es s := by
  obtain ⟨d, hd, hs⟩ := ofContent?_eq_some_iff.mp h
  have hnames := (Entries.sound_iff.mp (Document.parse_sound hd).entries).1
  exact ⟨d.entries, ((ofDocument?_eq_some_iff hnames).mp hs).2⟩

theorem namespaces_ordered {content : Text} (h : ofContent? content = some s) :
    s.namespaces.Ordered := by
  obtain ⟨es, hes⟩ := gives_of_ofContent? h
  exact ordered_of_value? hes.namespaces

theorem wrappers_ordered {content : Text} (h : ofContent? content = some s) :
    s.wrappers.Ordered := by
  obtain ⟨es, hes⟩ := gives_of_ofContent? h
  exact ordered_of_value? hes.wrappers

/-- The texts in a table of a document, under their names. -/
def textsOf (d : Document) (name : Text) : List (Text × Text) :=
  match (d.entries.get? name).bind Item.plain? with
  | some (.table pairs) => pairs
  | _ => []

/-- The document is that of a file with these settings, and everything in it is plain. -/
structure Describes (s : Settings) (d : Document) : Prop where
  sound : d.Sound
  isPlain : d.entries.IsPlain
  ofDocument : ofDocument? d = some s

namespace Describes

theorem names_nodup (h : s.Describes d) : d.entries.names.Nodup :=
  (Entries.sound_iff.mp h.sound.entries).1

theorem gives (h : s.Describes d) : Gives {} d.entries s :=
  ((ofDocument?_eq_some_iff h.names_nodup).mp h.ofDocument).2

theorem textsOf_names_nodup (h : s.Describes d) (name : Text) :
    (Registry.names (textsOf d name)).Nodup := by
  unfold textsOf
  split
  · rename_i pairs hpairs
    obtain ⟨i, hi, hplain⟩ := Option.bind_eq_some_iff.mp hpairs
    obtain ⟨k, hmem, -⟩ := Entries.mem_of_get? hi
    exact pairs_names_nodup ((Entries.sound_iff.mp h.sound.entries).2.2.2.1 _ hmem) hplain
  · exact List.nodup_nil

theorem eq_registryOf (h : s.Describes d) {name : Text} {r : Registry}
    (hr : value? registryOf? [] (d.entries.get? name) = some r) :
    r = registryOf (textsOf d name) := by
  unfold textsOf
  cases hi : d.entries.get? name with
  | none =>
      rw [hi] at hr
      cases hr
      rfl
  | some i =>
      obtain ⟨k, hmem, -⟩ := Entries.mem_of_get? hi
      obtain ⟨p, hp⟩ := Option.isSome_iff_exists.mp (h.isPlain _ hmem)
      rw [hi, value?, registryOf?_of_plain? hp] at hr
      rw [Option.bind_some, hp]
      cases p with
      | table pairs => exact (Option.some.inj hr).symm
      | text | boolean | texts => contradiction

theorem namespaces_eq (h : s.Describes d) : s.namespaces = registryOf (textsOf d "namespaces") :=
  h.eq_registryOf h.gives.namespaces

theorem wrappers_eq (h : s.Describes d) : s.wrappers = registryOf (textsOf d "wrappers") :=
  h.eq_registryOf h.gives.wrappers

theorem wrappers_names_nodup (h : s.Describes d) : s.wrappers.names.Nodup :=
  (ordered_of_value? h.gives.wrappers).names_nodup

end Describes

theorem get?_registryOf (h : (Registry.names pairs).Nodup) (name : Text) :
    (registryOf pairs).get? name = Registry.get? name pairs :=
  Registry.get?_of_perm (registryOf_perm h) h

/-- A root is that of the file, or the one that is built in. -/
theorem root?_registryOf (hs : s.namespaces = registryOf pairs) (h : (Registry.names pairs).Nodup)
    (name : Text) : s.config.table.root? name =
      (Registry.get? name pairs).or (NamespaceTable.default.root? name) := by
  change (Registry.putAll s.namespaces _).get? name = _
  rw [hs, Registry.get?_putAll (registryOf_names_nodup h), get?_registryOf h]
  rfl

theorem IsConsistent.wellFormed (h : s.IsConsistent) (hnames : s.namespaces.names.Nodup) :
    s.config.table.WellFormed := by
  have hhas {name : Text} : s.config.table.roots.has name = true ↔
      name ∈ s.namespaces.names ∨ name ∈ NamespaceTable.default.roots.names :=
    Registry.has_putAll hnames
  refine ⟨fun {name} hname => ?_, fun {w name} hw => ?_⟩
  · rcases hhas.mp hname with hmem | hmem
    · obtain ⟨p, hp, rfl⟩ := List.mem_map.mp hmem
      exact h.isName p hp
    · exact NamespaceTable.wellFormed_default.isName (Registry.has_iff_mem_names.mpr hmem)
  · rw [config, table, NamespaceTable.wrapperNamespace?_withWrappers, Option.or_eq_some_iff] at hw
    rcases hw with hw | ⟨-, hw⟩
    · exact h.registered _ (Registry.mem_of_get? hw)
    · have hdefault := NamespaceTable.wellFormed_default.registered (w := w)
        (by cases w <;> exact hw)
      exact hhas.mpr (.inr (Registry.has_iff_mem_names.mp hdefault))

namespace Describes

theorem wellFormed (h : s.Describes d) (hs : s.IsConsistent) : s.config.table.WellFormed :=
  hs.wellFormed (ordered_of_value? h.gives.namespaces).names_nodup

theorem root?_eq (h : s.Describes d) (name : Text) : s.config.table.root? name =
    (Registry.get? name (textsOf d "namespaces")).or (NamespaceTable.default.root? name) :=
  root?_registryOf h.namespaces_eq (h.textsOf_names_nodup _) name

theorem wrapperNamespace?_eq (h : s.Describes d) (w : Wrapper) :
    s.config.table.wrapperNamespace? w = (Registry.get? w.key (textsOf d "wrappers")).or
      (NamespaceTable.default.wrapperNamespace? w) := by
  rw [config, table, NamespaceTable.wrapperNamespace?_withWrappers, h.wrappers_eq,
    get?_registryOf (h.textsOf_names_nodup _)]
  cases w <;> rfl

end Describes

/-- The wrappers that stand for a namespace of the file are those that the file says. -/
theorem wrapperNamespace?_table (h : s.Describes d) {w : Wrapper} {name : Text}
    (hname : Namespace.isBuiltin name = false) :
    s.config.table.wrapperNamespace? w = some name ↔ (w.key, name) ∈ s.wrappers := by
  have hdefault : NamespaceTable.default.wrapperNamespace? w ≠ some name := by
    rintro hw
    cases w <;> cases hw <;> contradiction
  rw [config, table, NamespaceTable.wrapperNamespace?_withWrappers,
    ← Registry.get?_eq_some_iff h.wrappers_names_nodup]
  change (s.wrappers.get? w.key).or (NamespaceTable.default.wrapperNamespace? w) = _ ↔ _
  cases s.wrappers.get? w.key with
  | none => simpa using hdefault
  | some value => simp

theorem IsConsistent.namespaces_ne_momentKey (h : s.IsConsistent) :
    ∀ p ∈ s.namespaces, p.1 ≠ momentKey := by
  intro p hp hkey
  have hname := h.isName p hp
  rw [hkey] at hname
  exact absurd (hname.2 '$' (by decide)) (by decide)

theorem IsConsistent.wrappers_ne_momentKey (h : s.IsConsistent) :
    ∀ p ∈ s.wrappers, p.1 ≠ momentKey := by
  intro p hp hkey
  obtain ⟨w, hw⟩ := h.isWrapper p hp
  rw [hkey] at hw
  cases w <;> exact absurd hw (by decide)

end Settings

namespace Config

variable {file : Path} {content : Text} {c : Config} {s : Settings} {d : Document}

theorem parse_of_ofContent? (h : Settings.ofContent? content = some s) :
    parse file content = ofSettings file s := by
  obtain ⟨d, hd, hs⟩ := Settings.ofContent?_eq_some_iff.mp h
  unfold parse
  simp only [hd, hs]

/-- Content is loaded if it is read as settings that are consistent, and gives the configuration
that they make. -/
theorem parse_eq_ok_iff : parse file content = .ok c ↔
    ∃ s, Settings.ofContent? content = some s ∧ s.IsConsistent ∧ c = s.config := by
  constructor
  · intro h
    have hsettings : ∃ s, Settings.ofContent? content = some s := by
      unfold parse at h
      split at h
      · contradiction
      · rename_i d hd
        split at h
        · contradiction
        · rename_i s hs
          exact ⟨s, Settings.ofContent?_eq_some_iff.mpr ⟨d, hd, hs⟩⟩
    obtain ⟨s, hs⟩ := hsettings
    rw [parse_of_ofContent? hs, ofSettings_eq_ok_iff (Settings.wrappers_ordered hs).names_nodup]
      at h
    exact ⟨s, hs, h⟩
  · rintro ⟨s, hs, h⟩
    rw [parse_of_ofContent? hs, ofSettings_eq_ok_iff (Settings.wrappers_ordered hs).names_nodup]
    exact h

/-- A configuration that is loaded comes from a document of consistent settings. -/
theorem exists_of_parse (h : parse file content = .ok c) : ∃ d, ∃ s : Settings,
    Document.parse content = .ok d ∧ s.Describes d ∧ s.IsConsistent ∧ c = s.config := by
  obtain ⟨s, hcontent, hconsistent, rfl⟩ := parse_eq_ok_iff.mp h
  obtain ⟨d, hd, hs⟩ := Settings.ofContent?_eq_some_iff.mp hcontent
  have hsound := Document.parse_sound hd
  have hnames := (Entries.sound_iff.mp hsound.entries).1
  exact ⟨d, s, hd, ⟨hsound, Settings.isPlain_of_ofDocument? hnames hs
    hconsistent.namespaces_ne_momentKey hconsistent.wrappers_ne_momentKey, hs⟩, hconsistent, rfl⟩

/-- The settings of a document are read from the file that it is written to. -/
theorem parse_write (h : s.Describes d) : parse file d.write = ofSettings file s := by
  obtain ⟨d', hparse, hcopy⟩ := Document.parse_write h.sound h.isPlain
  have hsettings := Settings.ofDocument?_of_isCopy hcopy h.names_nodup h.isPlain h.ofDocument
  unfold parse
  simp only [hparse, hsettings]

/-- The file of a document that is written out is loaded if its settings are consistent, and gives
the configuration that they make. -/
theorem parse_write_eq_ok_iff (h : s.Describes d) :
    parse file d.write = .ok c ↔ s.IsConsistent ∧ c = s.config := by
  rw [parse_write h, ofSettings_eq_ok_iff h.wrappers_names_nodup]

end Config
end Shorthand
