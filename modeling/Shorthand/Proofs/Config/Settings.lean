import Shorthand.Config.Settings
import Shorthand.Proofs.Toml.Roundtrip

/-!
What the settings of a configuration file depend on: the content under each key, whatever the
order of the keys and however the values are written.
-/

namespace Shorthand
open Toml

namespace Settings

variable {s s₀ s₁ : Settings} {es rest : Entries} {k : Key} {i : Item} {name : Text} {α : Type}

/-- The keys that a configuration file may have. -/
def keys : List Text :=
  ["include", "exclude", "index_file", "namespaces", "url_placeholders", "workspaces", "wrappers"]

/-- What is read from an item, or the default where there is none. -/
def value? (read : Item → Option α) (default : α) : Option Item → Option α
  | none => some default
  | some i => read i

/-- Each setting is what its key says, or what it was. -/
structure Gives (s₀ : Settings) (es : Entries) (s : Settings) : Prop where
  included : value? Item.texts? s₀.included (es.get? "include") = some s.included
  excluded : value? Item.texts? s₀.excluded (es.get? "exclude") = some s.excluded
  indexFile : value? (fun i => i.text?.map some) s₀.indexFile (es.get? "index_file") =
    some s.indexFile
  namespaces : value? registryOf? s₀.namespaces (es.get? "namespaces") = some s.namespaces
  urlPlaceholders : value? (fun i => i.boolean?.map some) s₀.urlPlaceholders
    (es.get? "url_placeholders") = some s.urlPlaceholders
  workspaces : value? (fun i => i.texts?.map some) s₀.workspaces (es.get? "workspaces") =
    some s.workspaces
  wrappers : value? registryOf? s₀.wrappers (es.get? "wrappers") = some s.wrappers

theorem value?_cons {read : Item → Option α} {a b : α} (hk : k.name ∉ rest.names) :
    value? read a (Entries.get? name ((k, i) :: rest)) = some b ↔
      ∃ a₁, value? read a (Entries.get? name [(k, i)]) = some a₁ ∧
        value? read a₁ (rest.get? name) = some b := by
  rw [Entries.get?, Entries.get?]
  by_cases hname : k.name = name
  · rw [if_pos hname, if_pos hname, ← hname, Entries.get?_eq_none_iff.mpr hk]
    simp [value?]
  · rw [if_neg hname, if_neg hname]
    simp [value?, Entries.get?]

theorem gives_cons (hk : k.name ∉ rest.names) :
    Gives s₀ ((k, i) :: rest) s ↔ ∃ s₁, Gives s₀ [(k, i)] s₁ ∧ Gives s₁ rest s := by
  constructor
  · intro h
    obtain ⟨a, ha, ha'⟩ := (value?_cons hk).mp h.included
    obtain ⟨b, hb, hb'⟩ := (value?_cons hk).mp h.excluded
    obtain ⟨c, hc, hc'⟩ := (value?_cons hk).mp h.indexFile
    obtain ⟨d, hd, hd'⟩ := (value?_cons hk).mp h.namespaces
    obtain ⟨e, he, he'⟩ := (value?_cons hk).mp h.urlPlaceholders
    obtain ⟨f, hf, hf'⟩ := (value?_cons hk).mp h.workspaces
    obtain ⟨g, hg, hg'⟩ := (value?_cons hk).mp h.wrappers
    exact ⟨⟨a, b, c, d, e, f, g⟩, ⟨ha, hb, hc, hd, he, hf, hg⟩, ⟨ha', hb', hc', hd', he', hf', hg'⟩⟩
  · rintro ⟨s₁, h₁, h⟩
    exact {
      included := (value?_cons hk).mpr ⟨_, h₁.included, h.included⟩
      excluded := (value?_cons hk).mpr ⟨_, h₁.excluded, h.excluded⟩
      indexFile := (value?_cons hk).mpr ⟨_, h₁.indexFile, h.indexFile⟩
      namespaces := (value?_cons hk).mpr ⟨_, h₁.namespaces, h.namespaces⟩
      urlPlaceholders := (value?_cons hk).mpr ⟨_, h₁.urlPlaceholders, h.urlPlaceholders⟩
      workspaces := (value?_cons hk).mpr ⟨_, h₁.workspaces, h.workspaces⟩
      wrappers := (value?_cons hk).mpr ⟨_, h₁.wrappers, h.wrappers⟩ }

theorem gives_nil : Gives s₀ [] s ↔ s = s₀ := by
  obtain ⟨⟩ := s₀
  obtain ⟨⟩ := s
  constructor
  · rintro ⟨⟨⟩, ⟨⟩, ⟨⟩, ⟨⟩, ⟨⟩, ⟨⟩, ⟨⟩⟩
    rfl
  · rintro ⟨⟩
    exact ⟨rfl, rfl, rfl, rfl, rfl, rfl, rfl⟩

theorem gives_iff : Gives s₀ es s ↔
    value? Item.texts? s₀.included (es.get? "include") = some s.included ∧
    value? Item.texts? s₀.excluded (es.get? "exclude") = some s.excluded ∧
    value? (fun i => i.text?.map some) s₀.indexFile (es.get? "index_file") = some s.indexFile ∧
    value? registryOf? s₀.namespaces (es.get? "namespaces") = some s.namespaces ∧
    value? (fun i => i.boolean?.map some) s₀.urlPlaceholders (es.get? "url_placeholders") =
      some s.urlPlaceholders ∧
    value? (fun i => i.texts?.map some) s₀.workspaces (es.get? "workspaces") =
      some s.workspaces ∧
    value? registryOf? s₀.wrappers (es.get? "wrappers") = some s.wrappers :=
  ⟨fun ⟨a, b, c, d, e, f, g⟩ => ⟨a, b, c, d, e, f, g⟩,
    fun ⟨a, b, c, d, e, f, g⟩ => ⟨a, b, c, d, e, f, g⟩⟩

theorem read?_eq_some_iff :
    s₀.read? k.name i = some s₁ ↔ k.name ∈ keys ∧ Gives s₀ [(k, i)] s₁ := by
  obtain ⟨⟩ := s₀
  obtain ⟨⟩ := s₁
  rw [gives_iff]
  simp only [Entries.get?]
  generalize k.name = key
  unfold read?
  -- A key is compared with the seven that there are, one after the other.
  repeat
    split
    · rename_i h
      subst h
      simp [keys, value?] <;> grind
  simp_all [keys]

theorem foldlM_read?_eq_some_iff (h : es.names.Nodup) :
    es.foldlM (fun s (k, i) => s.read? k.name i) s₀ = some s ↔
      (∀ name ∈ es.names, name ∈ keys) ∧ Gives s₀ es s := by
  induction es generalizing s₀ with
  | nil => simp [gives_nil, Entries.names, eq_comm]
  | cons p es ih =>
      obtain ⟨k, i⟩ := p
      obtain ⟨hk, hes⟩ := List.nodup_cons.mp h
      rw [List.foldlM_cons, Option.bind_eq_bind, Option.bind_eq_some_iff, gives_cons hk]
      simp only [read?_eq_some_iff, ih hes, Entries.names, List.map_cons, List.forall_mem_cons]
      constructor
      · rintro ⟨s₁, ⟨hkey, h₁⟩, hkeys, hrest⟩
        exact ⟨⟨hkey, hkeys⟩, s₁, h₁, hrest⟩
      · rintro ⟨⟨hkey, hkeys⟩, s₁, h₁, hrest⟩
        exact ⟨s₁, ⟨hkey, h₁⟩, hkeys, hrest⟩

theorem ofDocument?_eq_some_iff {d : Document} (h : d.entries.names.Nodup) :
    ofDocument? d = some s ↔
      (∀ name ∈ d.entries.names, name ∈ keys) ∧ Gives {} d.entries s :=
  foldlM_read?_eq_some_iff h

/-- What is read depends on the content of an item, and of a table without entries nothing or the
default is read. -/
structure ReadsContent (read : Item → Option α) (default : α) : Prop where
  congr : ∀ {i i' : Item}, i.plain?.isSome = true → i.plain? = i'.plain? → read i = read i'
  void : ∀ {head : Head} {a : α}, read (.table head []) = some a → a = default

/-- The registry of the pairs, where a later pair counts for more. -/
def registryOf (pairs : List (Text × Text)) : Registry :=
  pairs.foldl (fun r p => r.put p.1 p.2) []

def ofText? : Plain → Option Text
  | .text v => some v
  | _ => none

def ofBoolean? : Plain → Option Bool
  | .boolean v => some v
  | _ => none

def ofTexts? : Plain → Option (List Text)
  | .texts l => some l
  | _ => none

def ofTable? : Plain → Option Registry
  | .table pairs => some (registryOf pairs)
  | _ => none

theorem text?_of_plain? {p : Plain} (h : i.plain? = some p) : i.text? = ofText? p := by
  cases i with
  | scalar value => cases value <;> cases h <;> rfl
  | array items | inline _ _ items | table _ items =>
      obtain ⟨_, -, rfl⟩ := Option.map_eq_some_iff.mp h
      rfl
  | tables => contradiction

theorem boolean?_of_plain? {p : Plain} (h : i.plain? = some p) : i.boolean? = ofBoolean? p := by
  cases i with
  | scalar value => cases value <;> cases h <;> rfl
  | array items | inline _ _ items | table _ items =>
      obtain ⟨_, -, rfl⟩ := Option.map_eq_some_iff.mp h
      rfl
  | tables => contradiction

theorem texts?_of_plain? {p : Plain} (h : i.plain? = some p) : i.texts? = ofTexts? p := by
  cases i with
  | scalar value => cases value <;> cases h <;> rfl
  | array items =>
      obtain ⟨_, hitems, rfl⟩ := Option.map_eq_some_iff.mp h
      exact hitems
  | inline _ _ items | table _ items =>
      obtain ⟨_, -, rfl⟩ := Option.map_eq_some_iff.mp h
      rfl
  | tables => contradiction

theorem foldlM_text? {pairs : List (Text × Text)} (h : es.pairs? = some pairs) (r : Registry) :
    es.foldlM (fun r (k, i) => i.text?.map fun t => r.put k.name t) r =
      some (pairs.foldl (fun r p => r.put p.1 p.2) r) := by
  induction es generalizing r pairs with
  | nil =>
      cases h
      rfl
  | cons p es ih =>
      obtain ⟨v, more, hv, hmore, rfl⟩ := Entries.pairs?_cons.mp h
      rw [List.foldlM_cons]
      simp only [hv]
      exact ih hmore _

theorem registryOf?_of_plain? {p : Plain} (h : i.plain? = some p) :
    registryOf? i = ofTable? p := by
  cases i with
  | scalar value => cases value <;> cases h <;> rfl
  | array items =>
      obtain ⟨_, -, rfl⟩ := Option.map_eq_some_iff.mp h
      rfl
  | inline _ _ items | table _ items =>
      obtain ⟨pairs, hpairs, rfl⟩ := Option.map_eq_some_iff.mp h
      exact foldlM_text? hpairs []
  | tables => contradiction

theorem ReadsContent.of_plain? {read : Item → Option α} (ofPlain : Plain → Option α) {default : α}
    (h : ∀ {i : Item} {p : Plain}, i.plain? = some p → read i = ofPlain p)
    (hvoid : ∀ a, ofPlain (.table []) = some a → a = default) : ReadsContent read default where
  congr hi heq := by
    obtain ⟨p, hp⟩ := Option.isSome_iff_exists.mp hi
    rw [h hp, h (heq ▸ hp)]
  void {head a} ha := hvoid a (h (i := .table head []) rfl ▸ ha)

theorem readsContent_text? : ReadsContent (fun i => i.text?.map some) none :=
  .of_plain? (fun p => (ofText? p).map some) (fun h => by rw [text?_of_plain? h]) nofun

theorem readsContent_boolean? : ReadsContent (fun i => i.boolean?.map some) none :=
  .of_plain? (fun p => (ofBoolean? p).map some) (fun h => by rw [boolean?_of_plain? h]) nofun

theorem readsContent_texts? : ReadsContent Item.texts? [] :=
  .of_plain? ofTexts? texts?_of_plain? nofun

theorem readsContent_maybeTexts? : ReadsContent (fun i => i.texts?.map some) none :=
  .of_plain? (fun p => (ofTexts? p).map some) (fun h => by rw [texts?_of_plain? h]) nofun

theorem readsContent_registryOf? : ReadsContent registryOf? [] :=
  .of_plain? ofTable? registryOf?_of_plain? fun _ h => (Option.some.inj h).symm

theorem value?_of_isCopy {d d' : Document} {read : Item → Option α} {default a : α}
    (hread : ReadsContent read default) (hcopy : d.IsCopy d') (hnames : d.entries.names.Nodup)
    (hplain : d.entries.IsPlain) (h : value? read default (d.entries.get? name) = some a) :
    value? read default (d'.entries.get? name) = some a := by
  rcases hcopy.get? hnames name with ⟨hnone, hvoid⟩ | ⟨i, i', hi, hi', heq⟩
  · rw [hnone]
    cases hi : d.entries.get? name with
    | none => rwa [hi] at h
    | some i =>
        obtain ⟨head, rfl⟩ := hvoid i hi
        rw [hi] at h
        rw [hread.void h, value?]
  · obtain ⟨k, hmem, -⟩ := Entries.mem_of_get? hi
    rw [hi] at h
    rw [hi', value?, ← hread.congr (hplain _ hmem) heq]
    exact h

/-- A document and its copy hold the same settings. -/
theorem ofDocument?_of_isCopy {d d' : Document} (hcopy : d.IsCopy d')
    (hnames : d.entries.names.Nodup) (hplain : d.entries.IsPlain) (h : ofDocument? d = some s) :
    ofDocument? d' = some s := by
  obtain ⟨hkeys, hgives⟩ := (ofDocument?_eq_some_iff hnames).mp h
  refine (ofDocument?_eq_some_iff (hcopy.names_nodup hnames)).mpr
    ⟨fun name hname => hkeys name (hcopy.names_subset hname), ?_⟩
  exact {
    included := value?_of_isCopy readsContent_texts? hcopy hnames hplain hgives.included
    excluded := value?_of_isCopy readsContent_texts? hcopy hnames hplain hgives.excluded
    indexFile := value?_of_isCopy readsContent_text? hcopy hnames hplain hgives.indexFile
    namespaces := value?_of_isCopy readsContent_registryOf? hcopy hnames hplain hgives.namespaces
    urlPlaceholders :=
      value?_of_isCopy readsContent_boolean? hcopy hnames hplain hgives.urlPlaceholders
    workspaces := value?_of_isCopy readsContent_maybeTexts? hcopy hnames hplain hgives.workspaces
    wrappers := value?_of_isCopy readsContent_registryOf? hcopy hnames hplain hgives.wrappers }

theorem plain?_of_text? {v : Text} (h : i.text? = some v) : i.plain?.isSome = true := by
  rw [Item.plain?_text.mpr h]
  rfl

theorem plain?_of_boolean? {v : Bool} (h : i.boolean? = some v) : i.plain?.isSome = true := by
  cases i with
  | scalar value => cases value <;> first | rfl | contradiction
  | array | inline | table | tables => contradiction

theorem plain?_of_texts? {l : List Text} (h : i.texts? = some l) : i.plain?.isSome = true := by
  cases i with
  | array items =>
      rw [Item.plain?, show items.mapM Item.text? = some l from h]
      rfl
  | scalar | inline | table | tables => contradiction

theorem pairs?_of_foldlM (es : Entries) {r r' : Registry}
    (h : es.foldlM (fun r (k, i) => i.text?.map fun t => r.put k.name t) r = some r') :
    es.pairs?.isSome = true := by
  induction es generalizing r with
  | nil => rfl
  | cons p es ih =>
      obtain ⟨r₁, h₁, hrest⟩ := Option.bind_eq_some_iff.mp h
      obtain ⟨v, hv, -⟩ := Option.map_eq_some_iff.mp h₁
      obtain ⟨more, hmore⟩ := Option.isSome_iff_exists.mp (ih hrest)
      rw [Entries.pairs?_cons.mpr ⟨v, more, hv, hmore, rfl⟩]
      rfl

/-- Where a table is expected, a date or time is taken for one, under a key of its own. -/
theorem plain?_of_registryOf? {r : Registry} (h : registryOf? i = some r) :
    i.plain?.isSome = true ∨ ∃ spelling, r = [(momentKey, spelling)] := by
  cases i with
  | scalar value spelling =>
      cases value with
      | moment =>
          cases h
          exact .inr ⟨spelling, rfl⟩
      | text | boolean | number => contradiction
  | inline _ _ items | table _ items =>
      refine .inl ?_
      rw [Item.plain?, Option.isSome_map]
      exact pairs?_of_foldlM items h
  | array | tables => contradiction

theorem plain?_of_registry {r : Registry} (h : registryOf? i = some r)
    (hmoment : ∀ p ∈ r, p.1 ≠ momentKey) : i.plain?.isSome = true := by
  rcases plain?_of_registryOf? h with hplain | ⟨spelling, rfl⟩
  · exact hplain
  · exact absurd rfl (hmoment (momentKey, spelling) List.mem_cons_self)

/-- In the file of settings without a date or time every entry is plain. -/
theorem isPlain_of_ofDocument? {d : Document} (hnames : d.entries.names.Nodup)
    (h : ofDocument? d = some s) (hnamespaces : ∀ p ∈ s.namespaces, p.1 ≠ momentKey)
    (hwrappers : ∀ p ∈ s.wrappers, p.1 ≠ momentKey) : d.entries.IsPlain := by
  obtain ⟨hkeys, hgives⟩ := (ofDocument?_eq_some_iff hnames).mp h
  rintro ⟨k, i⟩ hmem
  have hget := Entries.get?_of_mem hnames hmem
  have hkey := hkeys k.name (List.mem_map_of_mem hmem)
  have hread {β : Type} {read : Item → Option β} {a b : β} {name : Text} (hname : k.name = name)
      (h : value? read a (d.entries.get? name) = some b) : read i = some b := by
    rw [← hname, hget] at h
    exact h
  simp only [keys, List.mem_cons, List.not_mem_nil, or_false] at hkey
  rcases hkey with hname | hname | hname | hname | hname | hname | hname
  · exact plain?_of_texts? (hread hname hgives.included)
  · exact plain?_of_texts? (hread hname hgives.excluded)
  · obtain ⟨v, hv, -⟩ := Option.map_eq_some_iff.mp (hread hname hgives.indexFile)
    exact plain?_of_text? hv
  · exact plain?_of_registry (hread hname hgives.namespaces) hnamespaces
  · obtain ⟨v, hv, -⟩ := Option.map_eq_some_iff.mp (hread hname hgives.urlPlaceholders)
    exact plain?_of_boolean? hv
  · obtain ⟨v, hv, -⟩ := Option.map_eq_some_iff.mp (hread hname hgives.workspaces)
    exact plain?_of_texts? hv
  · exact plain?_of_registry (hread hname hgives.wrappers) hwrappers

end Settings
end Shorthand
