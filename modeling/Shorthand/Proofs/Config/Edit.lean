import Shorthand.Config.Edit
import Shorthand.Proofs.Config.Loading
import Shorthand.Proofs.Toml.Spelling

/-!
What an edit of the namespaces makes of the settings. The edited document can be written out, and
only its namespaces and, in a renaming, its wrappers differ.
-/

namespace Shorthand
open Toml

namespace Toml

theorem Item.ofText_sound (v : Text) : (Item.ofText v).Sound := by
  have htakes := Reader.stringSpelling_takes v
  obtain ⟨c, t, hc, hs, -⟩ := Reader.string_eq_ok (htakes [] stops_nil)
  rw [List.append_nil, List.append_nil] at hs
  exact .scalar ⟨⟨c, t, hs, hc⟩, htakes⟩

theorem Key.bare_tight {name : Text} (h : Namespace.IsName name) : (Key.bare name).Tight :=
  Key.Sound.bare h.1 h.2

namespace Entries

variable {es : Entries} {name : Text} {pairs : List (Text × Text)}

theorem get?_append (es es' : Entries) (n : Text) :
    Entries.get? n (es ++ es') = (es.get? n).or (es'.get? n) := by
  induction es with
  | nil => rfl
  | cons p es ih =>
      rw [List.cons_append, get?, get?, ih]
      split <;> rfl

theorem get?_append_new {k : Key} {i : Item} (h : k.name ∉ es.names) (n : Text) :
    Entries.get? n (es ++ [(k, i)]) = if n = k.name then some i else es.get? n := by
  rw [get?_append, get?, get?]
  by_cases hn : n = k.name
  · rw [if_pos hn, if_pos hn.symm, hn, get?_eq_none_iff.mpr h, Option.none_or]
  · rw [if_neg hn, if_neg (Ne.symm hn), Option.or_none]

theorem get?_set (item : Item) (es : Entries) (n : Text) :
    (es.set name item).get? n =
      if n = name then (es.get? name).map fun _ => item else es.get? n := by
  induction es with
  | nil => simp [set, get?]
  | cons p es ih =>
      obtain ⟨k, i⟩ := p
      have hcons : set name item ((k, i) :: es) =
          (k, if k.name = name then item else i) :: set name item es := by
        by_cases hk : k.name = name <;> simp [set, hk]
      rw [hcons, get?, get?, get?, ih]
      by_cases hk : k.name = name
      · subst hk
        by_cases hn : k.name = n
        · simp [hn]
        · simp [hn, Ne.symm hn]
      · by_cases hn : k.name = n
        · simp [hn, hn ▸ hk]
        · simp [hn, hk]

theorem mem_of_pairs? (h : es.pairs? = some pairs) {k : Key} {i : Item} (hmem : (k, i) ∈ es)
    {v : Text} (hv : i.text? = some v) : (k.name, v) ∈ pairs := by
  induction es generalizing pairs with
  | nil => contradiction
  | cons p es ih =>
      obtain ⟨v', more, hv', hmore, rfl⟩ := pairs?_cons.mp h
      rcases List.mem_cons.mp hmem with rfl | hmem
      · cases hv.symm.trans hv'
        exact List.mem_cons_self
      · exact List.mem_cons_of_mem _ (ih hmore hmem)

theorem pairs?_append {es' : Entries} {pairs' : List (Text × Text)} (h : es.pairs? = some pairs)
    (h' : es'.pairs? = some pairs') : Entries.pairs? (es ++ es') = some (pairs ++ pairs') := by
  induction es generalizing pairs with
  | nil =>
      cases h
      exact h'
  | cons p es ih =>
      obtain ⟨v, more, hv, hmore, rfl⟩ := pairs?_cons.mp h
      exact pairs?_cons.mpr ⟨v, _, hv, ih hmore, rfl⟩

theorem pairs?_erase (h : es.pairs? = some pairs) (name : Text) :
    (es.erase name).pairs? = some (Registry.without name pairs) := by
  induction es generalizing pairs with
  | nil =>
      cases h
      rfl
  | cons p es ih =>
      obtain ⟨v, more, hv, hmore, rfl⟩ := pairs?_cons.mp h
      rw [erase, Registry.without, List.filter_cons, List.filter_cons, ← erase, ← Registry.without]
      by_cases hname : p.1.name = name
      · simpa [hname] using ih hmore
      · simp only [hname, ne_eq, not_false_eq_true, decide_true, if_true]
        exact pairs?_cons.mpr ⟨v, _, hv, ih hmore, rfl⟩

theorem pairs?_moveValues (h : es.pairs? = some pairs) (old new : Text) :
    Entries.pairs? (es.map fun (k, i) =>
      if i.text? = some old then (k, Item.ofText new) else (k, i)) =
      some (Registry.moveValues old new pairs) := by
  induction es generalizing pairs with
  | nil =>
      cases h
      rfl
  | cons p es ih =>
      obtain ⟨k, i⟩ := p
      obtain ⟨v, more, hv, hmore, rfl⟩ := pairs?_cons.mp h
      rw [Registry.moveValues, List.map_cons, List.map_cons, ← Registry.moveValues]
      simp only at hv ⊢
      by_cases hold : v = old
      · subst hold
        rw [if_pos hv]
        exact pairs?_cons.mpr ⟨new, _, rfl, ih hmore, by simp⟩
      · rw [if_neg (by rw [hv]; exact fun h => hold (Option.some.inj h))]
        exact pairs?_cons.mpr ⟨v, _, hv, ih hmore, by simp [hold]⟩

theorem Sound.moveValues (h : es.Sound) (old new : Text) :
    Entries.Sound (es.map fun (k, i) =>
      if i.text? = some old then (k, Item.ofText new) else (k, i)) := by
  have hmap : (es.map fun (k, i) => if i.text? = some old then (k, Item.ofText new) else (k, i)) =
      es.map fun p => (p.1, if p.2.text? = some old then Item.ofText new else p.2) := by
    refine List.map_congr_left fun ⟨k, i⟩ _ => ?_
    exact (apply_ite (Prod.mk k) _ (Item.ofText new) i).symm
  rw [hmap]
  refine h.map fun p hp => ?_
  split
  · exact .inr ⟨Item.ofText_sound new, Decor.fits_empty, nofun⟩
  · exact .inl rfl

theorem IsPlain.append (h : es.IsPlain) {k : Key} {i : Item} (hi : i.plain?.isSome = true) :
    Entries.IsPlain (es ++ [(k, i)]) := by
  intro p hp
  rcases List.mem_append.mp hp with hp | hp
  · exact h p hp
  · exact List.mem_singleton.mp hp ▸ hi

theorem IsPlain.set (h : es.IsPlain) {item : Item} (hitem : item.plain?.isSome = true) :
    (es.set name item).IsPlain := by
  intro p hp
  rcases mem_set hp with hp | ⟨-, -, -, hp⟩
  · exact h p hp
  · rw [hp]
    exact hitem

end Entries
end Toml

namespace Settings

variable {s s₀ : Settings} {d d' : Document} {es es' : Entries} {r : Registry} {i item : Item}
  {pairs : List (Text × Text)} {name old new root : Text}

theorem Gives.with_namespaces (h : Gives s₀ es s)
    (hget : ∀ n, n ≠ ("namespaces" : Text) → es'.get? n = es.get? n)
    (hr : value? registryOf? s₀.namespaces (es'.get? "namespaces") = some r) :
    Gives s₀ es' { s with namespaces := r } where
  included := by rw [hget _ (by decide)]; exact h.included
  excluded := by rw [hget _ (by decide)]; exact h.excluded
  indexFile := by rw [hget _ (by decide)]; exact h.indexFile
  namespaces := hr
  urlPlaceholders := by rw [hget _ (by decide)]; exact h.urlPlaceholders
  workspaces := by rw [hget _ (by decide)]; exact h.workspaces
  wrappers := by rw [hget _ (by decide)]; exact h.wrappers

theorem Gives.with_wrappers (h : Gives s₀ es s)
    (hget : ∀ n, n ≠ ("wrappers" : Text) → es'.get? n = es.get? n)
    (hr : value? registryOf? s₀.wrappers (es'.get? "wrappers") = some r) :
    Gives s₀ es' { s with wrappers := r } where
  included := by rw [hget _ (by decide)]; exact h.included
  excluded := by rw [hget _ (by decide)]; exact h.excluded
  indexFile := by rw [hget _ (by decide)]; exact h.indexFile
  namespaces := by rw [hget _ (by decide)]; exact h.namespaces
  urlPlaceholders := by rw [hget _ (by decide)]; exact h.urlPlaceholders
  workspaces := by rw [hget _ (by decide)]; exact h.workspaces
  wrappers := hr

/-- The settings after a namespace has been added. -/
def added (s : Settings) (d : Document) (name root : Text) : Settings :=
  { s with namespaces := registryOf (textsOf d "namespaces" ++ [(name, root)]) }

/-- The settings after a removal. -/
def removed (s : Settings) (d : Document) (name : Text) : Settings :=
  { s with namespaces := registryOf (Registry.without name (textsOf d "namespaces")) }

theorem registryOf?_of_table (h : item.plain? = some (.table pairs)) :
    registryOf? item = some (registryOf pairs) :=
  registryOf?_of_plain? h

namespace Describes

theorem keys (h : s.Describes d) : ∀ n ∈ d.entries.names, n ∈ Settings.keys :=
  ((ofDocument?_eq_some_iff h.names_nodup).mp h.ofDocument).1

theorem mem_of_get? (h : s.Describes d) (hi : d.entries.get? name = some i) :
    i.Sound ∧ i.decor.Fits IsSpaces IsTail ∧ i.plain?.isSome = true := by
  obtain ⟨k, hmem, -⟩ := Entries.mem_of_get? hi
  obtain ⟨-, -, -, hitems, harounds⟩ := Entries.sound_iff.mp h.sound.entries
  exact ⟨hitems _ hmem, harounds _ hmem, h.isPlain _ hmem⟩

/-- An item may be replaced by another table of texts. -/
theorem set (h : s.Describes d) (hi : d.entries.get? name = some i) (hsound : item.Sound)
    (haround : item.decor.Fits IsSpaces IsTail)
    (hheader : item.hasHeader = true → i.hasHeader = true)
    (hplain : item.plain?.isSome = true) {s' : Settings}
    (hgives : Gives {} (d.entries.set name item) s') :
    s'.Describes { d with entries := d.entries.set name item } := by
  have hentries : (d.entries.set name item).Sound := by
    refine h.sound.entries.set hsound haround fun k x hmem hname => ?_
    have hget := Entries.get?_of_mem h.names_nodup hmem
    rw [hname, hi] at hget
    exact Option.some.inj hget ▸ hheader
  refine ⟨⟨hentries, h.sound.trailing⟩, h.isPlain.set hplain, ?_⟩
  refine (ofDocument?_eq_some_iff (Entries.sound_iff.mp hentries).1).mpr ⟨?_, hgives⟩
  rw [Entries.names_set]
  exact h.keys

/-- The namespaces may be added where there are none. -/
theorem append_namespaces (h : s.Describes d) (hi : d.entries.get? "namespaces" = none)
    (hsound : item.Sound) (haround : item.decor.Fits IsSpaces IsTail)
    (hplain : item.plain? = some (.table pairs)) :
    Describes { s with namespaces := registryOf pairs }
      { d with entries := d.entries ++ [(Key.bare "namespaces", item)] } := by
  have hkey : (Key.bare "namespaces").Tight :=
    Key.Sound.bare (by decide) (List.all_eq_true.mp (by decide))
  have hentries : Entries.Sound (d.entries ++ [(Key.bare "namespaces", item)]) :=
    h.sound.entries.append (Entries.get?_eq_none_iff.mp hi) hkey.toSound (fun _ => hkey) hsound
      haround
  have hget := Entries.get?_append_new (k := Key.bare "namespaces") (i := item)
    (Entries.get?_eq_none_iff.mp hi)
  refine ⟨⟨hentries, h.sound.trailing⟩, h.isPlain.append (by rw [hplain]; rfl), ?_⟩
  refine (ofDocument?_eq_some_iff (Entries.sound_iff.mp hentries).1).mpr
    ⟨?_, h.gives.with_namespaces ?_ ?_⟩
  · rw [Entries.names_append]
    exact List.forall_mem_append.mpr ⟨h.keys, by decide⟩
  · exact fun n hn => (hget n).trans (if_neg hn)
  · exact (congrArg (value? registryOf? []) ((hget _).trans (if_pos rfl))).trans
      (registryOf?_of_table hplain)

theorem set_namespaces (h : s.Describes d) (hi : d.entries.get? "namespaces" = some i)
    (hsound : item.Sound) (haround : item.decor.Fits IsSpaces IsTail)
    (hheader : item.hasHeader = true → i.hasHeader = true)
    (hplain : item.plain? = some (.table pairs)) :
    Describes { s with namespaces := registryOf pairs }
      { d with entries := d.entries.set "namespaces" item } := by
  refine h.set hi hsound haround hheader (by rw [hplain]; rfl) (h.gives.with_namespaces ?_ ?_)
  · intro n hn
    rw [Entries.get?_set, if_neg hn]
  · rw [Entries.get?_set, if_pos rfl, hi]
    exact registryOf?_of_table hplain

theorem set_wrappers (h : s.Describes d) (hi : d.entries.get? "wrappers" = some i)
    (hsound : item.Sound) (haround : item.decor.Fits IsSpaces IsTail)
    (hheader : item.hasHeader = true → i.hasHeader = true)
    (hplain : item.plain? = some (.table pairs)) :
    Describes { s with wrappers := registryOf pairs }
      { d with entries := d.entries.set "wrappers" item } := by
  refine h.set hi hsound haround hheader (by rw [hplain]; rfl) (h.gives.with_wrappers ?_ ?_)
  · intro n hn
    rw [Entries.get?_set, if_neg hn]
  · rw [Entries.get?_set, if_pos rfl, hi]
    exact registryOf?_of_table hplain

theorem plain?_table {head : Head} (h : s.Describes d)
    (hi : d.entries.get? name = some (.table head es)) : es.pairs? = some (textsOf d name) := by
  obtain ⟨p, hp⟩ := Option.isSome_iff_exists.mp (h.mem_of_get? hi).2.2
  obtain ⟨pairs, hpairs, rfl⟩ := Option.map_eq_some_iff.mp hp
  rw [textsOf, hi, Option.bind_some, hp]
  exact hpairs

theorem plain?_inline {dotted : Bool} {opening : Text} {decor : Decor} (h : s.Describes d)
    (hi : d.entries.get? name = some (.inline dotted opening es decor)) :
    es.pairs? = some (textsOf d name) := by
  obtain ⟨p, hp⟩ := Option.isSome_iff_exists.mp (h.mem_of_get? hi).2.2
  obtain ⟨pairs, hpairs, rfl⟩ := Option.map_eq_some_iff.mp hp
  rw [textsOf, hi, Option.bind_some, hp]
  exact hpairs

theorem not_mem_names (hes : es.pairs? = some pairs) (hhas : es.has name = false) :
    name ∉ Registry.names pairs := by
  rw [Entries.has_eq_false_iff, ← Entries.pairs?_map_fst hes] at hhas
  exact hhas

theorem has_iff_mem_names (hes : es.pairs? = some pairs) :
    es.has name = true ↔ name ∈ Registry.names pairs := by
  refine ⟨fun hhas => ?_, fun hmem => ?_⟩
  · by_contra hname
    change name ∉ pairs.map Prod.fst at hname
    rw [Entries.pairs?_map_fst hes, ← Entries.has_eq_false_iff, hhas] at hname
    contradiction
  · by_contra hhas
    exact not_mem_names hes (Bool.eq_false_iff.mpr hhas) hmem

theorem get?_of_namespaceTable? {head : Head} (h : d.namespaceTable? = some (head, es)) :
    d.entries.get? "namespaces" = some (.table head es) := by
  unfold Document.namespaceTable? at h
  split at h
  · rename_i hget
    cases h
    exact hget
  · contradiction

theorem addNamespace (h : s.Describes d) (hname : Namespace.IsName name)
    (hedit : d.addNamespace name root = .ok d') :
    name ∉ Registry.names (textsOf d "namespaces") ∧ (s.added d name root).Describes d' := by
  have hkey := Key.bare_tight hname
  have hitem := Item.ofText_sound root
  have hnew : Entries.pairs? [(Key.bare name, Item.ofText root)] = some [(name, root)] := rfl
  unfold Document.addNamespace at hedit
  split at hedit
  · rename_i hget
    cases hedit
    have htexts : textsOf d "namespaces" = [] := by rw [textsOf, hget]; rfl
    rw [added, htexts]
    exact ⟨nofun, h.append_namespaces hget (Entries.table_sound_iff.mpr ⟨Decor.fits_empty,
      Entries.sound_nil.append nofun hkey.toSound nofun hitem Decor.fits_empty⟩)
      Decor.fits_empty rfl⟩
  · rename_i head es hget
    have hes := h.plain?_table hget
    have hsound := (Entries.table_sound_iff.mp (h.mem_of_get? hget).1)
    unfold Document.extendNamespaces at hedit
    split at hedit
    · contradiction
    · rename_i hhas
      cases hedit
      have hhas := Bool.eq_false_iff.mpr hhas
      refine ⟨not_mem_names hes hhas, h.set_namespaces hget ?_ Decor.fits_empty id ?_⟩
      · exact Entries.table_sound_iff.mpr ⟨hsound.1, hsound.2.append
          (Entries.has_eq_false_iff.mp hhas) hkey.toSound nofun hitem Decor.fits_empty⟩
      · rw [Item.plain?, Entries.pairs?_append hes hnew]
        rfl
  · rename_i dotted opening es decor hget
    have hes := h.plain?_inline hget
    obtain ⟨hsound, haround, -⟩ := h.mem_of_get? hget
    obtain ⟨hopening, hsound⟩ := Entries.inlineSound_of_sound hsound
    unfold Document.extendNamespaces at hedit
    split at hedit
    · contradiction
    · rename_i hhas
      cases hedit
      have hhas := Bool.eq_false_iff.mpr hhas
      refine ⟨not_mem_names hes hhas, h.set_namespaces hget ?_ haround id ?_⟩
      · exact (hsound.append (Entries.has_eq_false_iff.mp hhas) hkey hitem
          Decor.fits_empty).inline hopening _ _
      · rw [Item.plain?, Entries.pairs?_append hes hnew]
        rfl
  · contradiction

theorem removeNamespace (h : s.Describes d) (hedit : d.removeNamespace name = .ok d') :
    name ∈ Registry.names (textsOf d "namespaces") ∧ (s.removed d name).Describes d' := by
  unfold Document.removeNamespace at hedit
  split at hedit
  · contradiction
  · rename_i head es htable
    split at hedit
    · rename_i hhas
      cases hedit
      have hget := get?_of_namespaceTable? htable
      have hes := h.plain?_table hget
      obtain ⟨hhead, hsound⟩ := Entries.table_sound_iff.mp (h.mem_of_get? hget).1
      refine ⟨(has_iff_mem_names hes).mp hhas, h.set_namespaces hget ?_ Decor.fits_empty id ?_⟩
      · exact Entries.table_sound_iff.mpr ⟨hhead, hsound.erase name⟩
      · rw [Item.plain?, Entries.pairs?_erase hes]
        rfl
    · contradiction

/-- The wrappers after a renaming. It leaves them if they are written as a value. -/
def movedWrappers (old new : Text) (d : Document) : Registry :=
  match d.entries.get? "wrappers" with
  | some (.table _ _) => registryOf (Registry.moveValues old new (textsOf d "wrappers"))
  | _ => registryOf (textsOf d "wrappers")

theorem movedWrappers_of_not_table
    (h : ¬ ∃ head es, d.entries.get? "wrappers" = some (.table head es)) :
    movedWrappers old new d = registryOf (textsOf d "wrappers") := by
  unfold movedWrappers
  split
  · rename_i head es hget
    exact absurd ⟨head, es, hget⟩ h
  · rfl

theorem movedWrappers_set_namespaces (old new : Text) (d : Document) (item : Item) :
    movedWrappers old new { d with entries := d.entries.set "namespaces" item } =
      movedWrappers old new d := by
  have hget : (d.entries.set "namespaces" item).get? "wrappers" = d.entries.get? "wrappers" :=
    (Entries.get?_set ..).trans (if_neg (by decide))
  simp only [movedWrappers, textsOf, hget]

theorem renameInWrappers (h : s.Describes d) (old new : Text) :
    Describes { s with wrappers := movedWrappers old new d }
      { d with entries := Document.renameInWrappers old new d.entries } := by
  by_cases htable : ∃ head es, d.entries.get? "wrappers" = some (.table head es)
  · obtain ⟨head, es, hget⟩ := htable
    have hes := h.plain?_table hget
    obtain ⟨hhead, hsound⟩ := Entries.table_sound_iff.mp (h.mem_of_get? hget).1
    simp only [Document.renameInWrappers, movedWrappers, hget]
    refine h.set_wrappers hget ?_ Decor.fits_empty id ?_
    · exact Entries.table_sound_iff.mpr ⟨hhead, hsound.moveValues old new⟩
    · rw [Item.plain?, Entries.pairs?_moveValues hes]
      rfl
  · have hsame : Document.renameInWrappers old new d.entries = d.entries := by
      unfold Document.renameInWrappers
      split
      · rename_i head es hget
        exact absurd ⟨head, es, hget⟩ htable
      · rfl
    rw [hsame, movedWrappers_of_not_table htable, ← h.wrappers_eq]
    exact h

theorem renameNamespace (h : s.Describes d) (hname : Namespace.IsName new)
    (hedit : d.renameNamespace old new = .ok d') : ∃ value,
      (old, value) ∈ textsOf d "namespaces" ∧ new ∉ Registry.names (textsOf d "namespaces") ∧
      Describes { s with
        namespaces := registryOf (Registry.without old (textsOf d "namespaces") ++ [(new, value)])
        wrappers := movedWrappers old new d } d' := by
  unfold Document.renameNamespace at hedit
  split at hedit
  · contradiction
  · rename_i head es htable
    split at hedit
    · contradiction
    · rename_i hhas
      split at hedit
      · contradiction
      · rename_i item hitem
        cases hedit
        have hget := get?_of_namespaceTable? htable
        have hes := h.plain?_table hget
        obtain ⟨hhead, hsound⟩ := Entries.table_sound_iff.mp (h.mem_of_get? hget).1
        have hnew := Bool.eq_false_iff.mpr hhas
        have hkey := Key.bare_tight hname
        obtain ⟨k, hmem, hk⟩ := Entries.mem_of_get? hitem
        obtain ⟨-, -, -, hitems, harounds⟩ := Entries.sound_iff.mp hsound
        obtain ⟨value, hvalue⟩ := Entries.text?_of_pairs? hes _ hmem
        have hpair : Entries.pairs? [(Key.bare new, item)] = some [(new, value)] :=
          Entries.pairs?_cons.mpr ⟨value, [], hvalue, rfl, rfl⟩
        have hsound' : (Item.table head (es.erase old ++ [(Key.bare new, item)])).Sound :=
          Entries.table_sound_iff.mpr ⟨hhead, (hsound.erase old).append
            (fun hmem => Entries.has_eq_false_iff.mp hnew
              (((Entries.erase_sublist old es).map _).subset hmem))
            hkey.toSound (fun _ => hkey) (hitems _ hmem) (harounds _ hmem)⟩
        have hrenamed := h.set_namespaces hget hsound' Decor.fits_empty id
          (by rw [Item.plain?, Entries.pairs?_append (Entries.pairs?_erase hes old) hpair]; rfl)
        have hmoved := hrenamed.renameInWrappers old new
        rw [movedWrappers_set_namespaces] at hmoved
        exact ⟨value, hk ▸ Entries.mem_of_pairs? hes hmem hvalue, not_mem_names hes hnew, hmoved⟩

end Describes
end Settings
end Shorthand
