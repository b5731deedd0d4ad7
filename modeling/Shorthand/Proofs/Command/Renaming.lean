import Shorthand.Proofs.Command.Removal
import Shorthand.Proofs.Config.Renaming

/-!
Renaming a namespace as a whole: the configuration, the wrappers and the documents are edited one
after the other, and the links are moved along. They lead where they led, save the ones in a wrapper
that the configuration does not list and those that are URLs under one of the names.
-/

namespace Shorthand

variable {old new : Text} {t : FileTree} {root : Path} {documents : List Source} {walk : Walk}

/-- A document with the targets in one namespace moved to another. -/
def Entry.moved (old new : Text) : Entry → Entry
  | .file (.text content) =>
      .file (.text (Text.replaceAll (targetStart old) (targetStart new) content))
  | e => e

theorem Entry.moved_eq_self {content : Text} (h : Text.occurs (targetStart old) content = false) :
    Entry.moved old new (.file (.text content)) = .file (.text content) := by
  rw [moved, Text.replaceAll_of_not_infix]
  rwa [← Text.occurs_iff_infix, Bool.not_eq_true]

/-- An entry, moved if one of the documents is at its route. -/
def Entry.movedIn (old new : Text) (documents : List Source) (r : Route) (e : Entry) : Entry :=
  if r ∈ documents.map (·.route) then e.moved old new else e

/-- The order in which the documents are come to makes no difference. -/
theorem Entry.movedIn_arrange :
    Entry.movedIn old new (walk.arrange documents) = Entry.movedIn old new documents := by
  funext r e
  simp only [movedIn, ((walk.perm documents).map (·.route)).mem_iff]

namespace Source

def moved (old new : Text) (s : Source) : Source :=
  { s with entry := s.entry.moved old new }

theorem read_moved (old new : Text) (s : Source) : (s.moved old new).read =
    s.read.map (Text.replaceAll (targetStart old) (targetStart new)) := by
  obtain ⟨route, relative, path, entry⟩ := s
  rw [read, read, moved]
  split
  · rfl
  · cases entry with
    | directory => rfl
    | file content => cases content <;> rfl

end Source

/-- A document is put back moved, also if nothing in it moves. -/
theorem retarget_cons (hordered : t.Ordered) {s : Source} {content : Text}
    (hread : s.read = .ok content) (hmem : (s.route, s.entry) ∈ t.entries) :
    let later := t.put s.route (s.entry.moved old new)
    (retarget old new (s :: documents) t).tree = (retarget old new documents later).tree ∧
      (retarget old new (s :: documents) t).error = (retarget old new documents later).error := by
  have hentry := (Source.read_eq_ok_iff.mp hread).2
  have hstep := retarget_of_read hread old new documents t
  split at hstep
  · rw [hentry]
    exact hstep
  · rename_i hoccurs
    have hsame : t.put s.route (s.entry.moved old new) = t := by
      have hmoved : Entry.moved old new (.file (.text content)) = .file (.text content) :=
        Entry.moved_eq_self (Bool.not_eq_true _ ▸ hoccurs)
      rw [hentry, hmoved, ← hentry, FileTree.put_self hordered hmem]
    rw [hsame]
    exact hstep

/-- Renaming in documents that can be read moves the targets in them and leaves everything else. -/
theorem retarget_eq_update (hordered : t.Ordered)
    (hmem : ∀ s ∈ documents, s.entry ≠ .directory → (s.route, s.entry) ∈ t.entries)
    (hnodup : (documents.map (·.route)).Nodup) (h : (retarget old new documents t).error = none) :
    (∀ s ∈ documents, s.IsReadable) ∧
      (retarget old new documents t).tree = t.update (Entry.movedIn old new documents) := by
  induction documents generalizing t with
  | nil => exact ⟨by simp, (FileTree.update_eq_self fun _ _ => rfl).symm⟩
  | cons s documents ih =>
      obtain ⟨hs, hnodup⟩ := List.nodup_cons.mp hnodup
      cases hread : s.read with
      | error e =>
          rw [retarget_of_unread hread] at h
          contradiction
      | ok content =>
          have hentry := (Source.read_eq_ok_iff.mp hread).2
          have hsmem := hmem s List.mem_cons_self (by simp [hentry])
          have hput := FileTree.put_eq_update hordered (FileTree.mem_routes hsmem)
            (s.entry.moved old new)
          obtain ⟨htree, herror⟩ := retarget_cons hordered hread hsmem
          rw [hput] at htree herror
          have hlater : ∀ x ∈ documents, x.entry ≠ .directory → (x.route, x.entry) ∈
              (t.update fun r e => if r = s.route then s.entry.moved old new else e).entries := by
            intro x hx hdirectory
            have hne : x.route ≠ s.route := fun heq => hs (List.mem_map.mpr ⟨x, hx, heq⟩)
            have hupdated := FileTree.mem_update
              (f := fun r e => if r = s.route then s.entry.moved old new else e)
              (hmem x (List.mem_cons_of_mem _ hx) hdirectory)
            rwa [if_neg hne] at hupdated
          obtain ⟨hreadable, hmore⟩ := ih (hordered.update _) hlater hnodup (herror.symm.trans h)
          refine ⟨List.forall_mem_cons.mpr ⟨⟨content, hread⟩, hreadable⟩, ?_⟩
          rw [htree, hmore, FileTree.update_update]
          refine FileTree.update_congr fun p hp => ?_
          obtain ⟨r, e⟩ := p
          simp only [Entry.movedIn, List.map_cons, List.mem_cons]
          by_cases hr : r = s.route
          · obtain rfl := hordered.unique hsmem (hr ▸ hp)
            rw [if_pos hr, if_pos (Or.inl hr), if_neg (hr ▸ hs)]
          · simp only [hr, if_false, false_or]

/-- Renaming in the documents of a project moves the targets in them. -/
theorem Config.retarget_eq_update (hordered : t.Ordered) (c : Config)
    (h : (c.retarget root old new walk t).error = none) :
    (∀ s ∈ c.sources root t, s.IsReadable) ∧ (c.retarget root old new walk t).tree =
      t.update (Entry.movedIn old new (c.sources root t)) := by
  have hmem : ∀ s ∈ walk.arrange (c.sources root t), s.entry ≠ .directory →
      (s.route, s.entry) ∈ t.entries := by
    intro s hs hdirectory
    rcases FileTree.mem_sources (List.mem_filter.mp (Walk.mem_arrange.mp hs)).1 with
      ⟨-, hentry⟩ | ⟨hentry, -⟩
    · exact absurd hentry hdirectory
    · exact hentry
  have hnodup : ((c.sources root t).map (·.route)).Nodup :=
    ((List.filter_sublist ..).map _).nodup (FileTree.sources_nodup hordered root)
  have hnodup' := ((walk.perm (c.sources root t)).map (·.route)).nodup_iff.mpr hnodup
  obtain ⟨hreadable, htree⟩ := Shorthand.retarget_eq_update hordered hmem hnodup' h
  exact ⟨fun s hs => hreadable s (Walk.mem_arrange.mpr hs),
    htree.trans (by rw [Entry.movedIn_arrange])⟩

/-- After renaming in the documents of a project, its documents are the same ones, moved. -/
theorem Config.sources_retarget (hordered : t.Ordered) (c : Config)
    (h : (c.retarget root old new walk t).error = none) :
    (∀ s ∈ c.sources root t, s.IsReadable) ∧
      c.sources root (c.retarget root old new walk t).tree =
        (c.sources root t).map (Source.moved old new) := by
  obtain ⟨hreadable, htree⟩ := c.retarget_eq_update hordered h
  refine ⟨hreadable, ?_⟩
  have hdirectory : ∀ r, Entry.movedIn old new (c.sources root t) r .directory = .directory :=
    fun r => ite_self _
  rw [htree, Config.sources, FileTree.sources_update hdirectory, List.filter_map]
  refine List.map_congr_left fun s hs => ?_
  have hroute : s.route ∈ (c.sources root t).map (·.route) := List.mem_map_of_mem hs
  rw [Entry.movedIn, if_pos hroute]
  rfl

/-- After renaming in the documents of a project each of them is found moved. -/
theorem Config.get?_retarget (hordered : t.Ordered) (c : Config)
    (h : (c.retarget root old new walk t).error = none) {s : Source}
    (hs : s ∈ c.sources root t) :
    (c.retarget root old new walk t).tree.get? s.route = some (s.entry.moved old new) := by
  obtain ⟨hreadable, htree⟩ := c.retarget_eq_update hordered h
  obtain ⟨content, hread⟩ := hreadable s hs
  have hentry := (Source.read_eq_ok_iff.mp hread).2
  have hfound := Config.get?_of_mem_sources hordered hs (by simp [hentry])
  rw [htree, FileTree.get?_update _ (Config.mem_sources_route_ne_nil hs), hfound, Option.map_some,
    Entry.movedIn, if_pos (List.mem_map_of_mem hs)]

namespace Occurrence

/-- The place of a link and the link, moved along. -/
def moved (old new : Text) (o : Occurrence) : Path × Link :=
  (o.source, o.link.moved old new)

/-- A document has the same links as before, moved. -/
theorem map_replaceAll (hold : Namespace.IsName old) (hnew : Namespace.IsName new) {source : Path}
    {content : Text} (h : ∀ o ∈ ofDocument source content, ¬ [']', '('] <:+: o.link.target) :
    (ofDocument source (Text.replaceAll (targetStart old) (targetStart new) content)).map
        (fun o => (o.source, o.link)) =
      (ofDocument source content).map (moved old new) := by
  have hmap := congrArg (List.map fun p : Path × Nat × Link => (p.1, p.2.2))
    (map_ofDocument_retargeted hold hnew source content)
  rw [List.map_map, List.map_map] at hmap
  refine hmap.trans (List.map_congr_left fun o ho => ?_)
  rw [Function.comp_apply, Link.retargeted_eq_moved hnew (h o ho), moved]

end Occurrence

namespace Source

theorem IsReadable.moved {s : Source} (h : s.IsReadable) : (s.moved old new).IsReadable := by
  obtain ⟨content, hread⟩ := h
  exact ⟨_, by rw [read_moved, hread]; rfl⟩

theorem isLink_of_mem_links {s : Source} {o : Occurrence} (h : o ∈ s.links) : o.link.IsLink := by
  unfold links at h
  split at h
  · exact Occurrence.isLink_of_mem h
  · contradiction

theorem map_links_moved (hold : Namespace.IsName old) (hnew : Namespace.IsName new) {s : Source}
    (h : ∀ o ∈ s.links, ¬ [']', '('] <:+: o.link.target) :
    (s.moved old new).links.map (fun o => (o.source, o.link)) =
      s.links.map (Occurrence.moved old new) := by
  rw [links, read_moved]
  rw [links] at h ⊢
  cases hread : s.read with
  | error e => rfl
  | ok content =>
      rw [hread] at h
      exact Occurrence.map_replaceAll hold hnew h

end Source

/-- A link that a renaming takes along: its label cannot make up a namespace, and its target neither
holds the start of a target nor names the new namespace. -/
structure Link.CanMove (l : Link) (new : Text) : Prop where
  not_mem_label : ':' ∉ l.label
  no_opening : ¬ [']', '('] <:+: l.target
  fresh : ¬ new ++ [':'] <+: l.target

/-- The links of documents that moved are the links of the documents, moved. -/
theorem Project.scan_moved (hold : Namespace.IsName old) (hnew : Namespace.IsName new)
    (p p' : Project) {later : FileTree} (hreadable : ∀ s ∈ p.config.sources p.root t, s.IsReadable)
    (hmoved : p'.config.sources p'.root later =
      (p.config.sources p.root t).map (Source.moved old new))
    (hlinks : ∀ links, p.scan t = .ok links → ∀ o ∈ links, o.link.CanMove new) :
    ∃ links links', p.scan t = .ok links ∧ p'.scan later = .ok links' ∧
      List.Forall₂ (fun o o' => (o.link.IsLink ∧ o.link.CanMove new) ∧
        o'.source = o.source ∧ o'.link = o.link.moved old new) links links' := by
  have hscan := scan_eq hreadable
  have hreadable' : ∀ s ∈ p'.config.sources p'.root later, s.IsReadable := by
    rw [hmoved]
    exact List.forall_mem_map.mpr fun s hs => (hreadable s hs).moved
  have hscan' := scan_eq hreadable'
  rw [hmoved, List.flatMap_map] at hscan'
  have hcan := hlinks _ hscan
  refine ⟨_, _, hscan, hscan', (List.forall₂_and_left _ _).mpr ⟨fun o ho => ⟨?_, hcan o ho⟩, ?_⟩⟩
  · obtain ⟨s, -, hs⟩ := List.mem_flatMap.mp ho
    exact Source.isLink_of_mem_links hs
  · have hpairs : ((p.config.sources p.root t).flatMap fun s => (s.moved old new).links).map
        (fun o => (o.source, o.link)) =
          ((p.config.sources p.root t).flatMap Source.links).map (Occurrence.moved old new) := by
      rw [List.map_flatMap, List.map_flatMap]
      refine List.flatMap_congr fun s hs => ?_
      exact Source.map_links_moved hold hnew fun o ho =>
        (hcan o (List.mem_flatMap.mpr ⟨s, hs, ho⟩)).no_opening
    rw [eq_comm, ← List.forall₂_eq_eq_eq, List.forall₂_map_left_iff, List.forall₂_map_right_iff]
      at hpairs
    refine hpairs.imp fun o o' h => ?_
    obtain ⟨hsource, hlink⟩ := Prod.mk.inj h
    exact ⟨hsource.symm, hlink.symm⟩

namespace Occurrence

variable {r r' : Resolver} {o o' : Occurrence}

/-- The canonical form of a link. -/
def canonical (o : Occurrence) (r : Resolver) : Text :=
  r.table.expandTarget r.options o.link.target o.link.label

/-- A link in a wrapper that stands for the namespace and that the configuration does not list. It
leads to the same path below the root that is built in as before below the root of the project. -/
def StaysBehind (o : Occurrence) (d : Toml.Document) (r r' : Resolver) (old : Text) : Prop :=
  (∃ w payload, o.link.target = w.wrap payload ∧ d.listsWrapper w = false) ∧ o.Reroots r r' old

/-- A link that has two slashes behind the name, which is a URL if the name is made of letters. One
of the names is, so that the link is a URL before or after the renaming, and not the same one both
times. -/
structure SwitchesScheme (o o' : Occurrence) (r r' : Resolver) (old new : Text) : Prop where
  forms : Text.SwitchesScheme old new (o.canonical r) (o'.canonical r')
  before : ∀ mode url, r.resolve (o.request mode) = .external url ↔
    IsScheme old ∧ url = o.canonical r
  after : ∀ mode url, r'.resolve (o'.request mode) = .external url ↔
    IsScheme new ∧ url = o'.canonical r'

/-- A link with two slashes behind a name is a URL just if the name is made of letters. -/
theorem resolve_eq_external_iff_isScheme {name : Text} (hname : Namespace.IsName name)
    (ho : o.link.IsLink) (h : name ++ [':', '/', '/'] <+: o.canonical r) (mode : Mode)
    (url : Text) :
    r.resolve (o.request mode) = .external url ↔ IsScheme name ∧ url = o.canonical r := by
  have htrimmed := ho.isTarget.trimmed
  have hne : o.link.target ≠ [] := by
    intro hnil
    have hempty : o.canonical r = [] := by
      rw [canonical, hnil]
      rfl
    rw [hempty, List.prefix_nil] at h
    simp at h
  have hprotocol : hasProtocol (o.canonical r) = true ↔ IsScheme name := by
    obtain ⟨rest, hrest⟩ := h
    rw [List.append_assoc] at hrest
    rw [← hrest]
    exact (hasProtocol_name_iff hname).trans (and_iff_left (List.prefix_append ['/', '/'] rest))
  rw [← hprotocol]
  exact Resolver.resolve_eq_external_iff (htrimmed.symm ▸ hne)
    (by rw [htrimmed, canonical]) o.source mode

/-- What a renaming makes of a link that is moved along. -/
theorem moved_cases (h : r.table.IsRenaming r'.table old new) (hoptions : r'.options = r.options)
    (hworkspaces : r'.workspaces = r.workspaces) (ho : o.link.IsLink) (hmove : o.link.CanMove new)
    (hsource : o'.source = o.source) (hlink : o'.link = o.link.moved old new) :
    (∀ mode, r'.resolve (o'.request mode) = r.resolve (o.request mode)) ∨
      ((∃ w payload, o.link.target = w.wrap payload ∧ r'.table.wrapperNamespace? w = some old) ∧
        o.Reroots r r' old) ∨
      o.SwitchesScheme o' r r' old new := by
  obtain ⟨link', source', line', column'⟩ := o'
  obtain rfl : source' = o.source := hsource
  obtain rfl : link' = o.link.moved old new := hlink
  by_cases huses : r'.table.Uses old (o.link.moved old new).target
  · obtain ⟨hold, w, payload, htarget, hbefore, hafter⟩ := h.stayed_of_uses huses
    have hlink : o.link.moved old new = o.link := by rw [Link.moved, Text.moved_eq_self hold]
    have htrimmed : o.link.target.trimmed = w.wrap payload := ho.isTarget.trimmed.trans htarget
    rw [hlink]
    exact (same_or_reroots h.wellFormed h.wellFormed_later hoptions hworkspaces hbefore hafter
      h.root?_old htrimmed).imp_right
        fun hreroots => .inl ⟨⟨w, payload, htarget, hafter⟩, hreroots⟩
  · by_cases hurl : Text.SwitchesScheme old new (o.canonical r)
        (canonical ⟨o.link.moved old new, o.source, line', column'⟩ r')
    · refine .inr (.inr ⟨hurl, resolve_eq_external_iff_isScheme h.isName_old ho hurl.before, ?_⟩)
      have ho' : (o.link.moved old new).IsLink := ho.moved h.isName_old h.isName_new
      exact resolve_eq_external_iff_isScheme h.isName_new ho' hurl.after
    · exact .inl (Resolver.resolve_moved h hoptions hworkspaces ho hmove.not_mem_label
        hmove.fresh huses hurl (some o.source))

end Occurrence

theorem exists_of_renamedConfig {d : Toml.Document} (h : renamedConfig root t old new = .ok d) :
    ∃ d₀, Namespace.IsName new ∧ configDocument root t = .ok d₀ ∧
      d₀.renameNamespace old new = .ok d := by
  obtain ⟨hname, h⟩ := renamedConfig_eq_ok_iff.mp h
  obtain ⟨d₀, hd₀, hedit⟩ := bind_eq_ok_iff.mp h
  exact ⟨d₀, Namespace.nameFault?_eq_none_iff.mp hname, hd₀, hedit⟩

/-- A configuration in which a namespace has been renamed, by the settings of the earlier one. -/
theorem Config.exists_renamed_settings {c later : Config} {d : Toml.Document}
    (hroot : root.IsResolved)
    (hload : load root t = .ok c) (hedit : renamedConfig root t old new = .ok d)
    (hlater : load root (putConfig root t d) = .ok later) :
    ∃ s d₀ value, configDocument root t = .ok d₀ ∧ Settings.Describes s d₀ ∧ s.IsConsistent ∧
      c = s.config ∧ (old, value) ∈ Settings.textsOf d₀ "namespaces" ∧
      new ∉ Registry.names (Settings.textsOf d₀ "namespaces") ∧
      (s.renamed d₀ old new value).IsConsistent ∧ later = (s.renamed d₀ old new value).config := by
  obtain ⟨d₀, hname, hd₀, hrename⟩ := exists_of_renamedConfig hedit
  obtain ⟨s, hs, hconsistent, hc⟩ := exists_settings hload hd₀
  obtain ⟨value, hvalue, hfresh, hrenamed⟩ := hs.renameNamespace hname hrename
  have hne₀ : d₀ ≠ ⟨[], []⟩ := by
    rintro rfl
    contradiction
  obtain ⟨hafter, hconfig⟩ := (load_putConfig_eq_ok_iff hroot hload hd₀ hne₀ hrenamed).mp hlater
  exact ⟨s, d₀, value, hd₀, hs, hconsistent, hc, hvalue, hfresh, hafter, hconfig⟩

/-- Of a configuration in which a namespace has been renamed only the table differs. -/
theorem Config.eq_of_load_renamed {c later : Config} {d : Toml.Document} (hroot : root.IsResolved)
    (hload : load root t = .ok c) (hedit : renamedConfig root t old new = .ok d)
    (hlater : load root (putConfig root t d) = .ok later) :
    later = { c with table := later.table } := by
  obtain ⟨s, d₀, value, -, -, -, hc, -, -, -, hconfig⟩ :=
    exists_renamed_settings hroot hload hedit hlater
  rw [hc, hconfig]
  rfl

theorem Config.isRenaming_of_load {c later : Config} {d : Toml.Document} (hroot : root.IsResolved)
    (hload : load root t = .ok c) (hnew : c.table.roots.has new = false)
    (hedit : renamedConfig root t old new = .ok d)
    (hlater : load root (putConfig root t d) = .ok later) :
    ∃ d₀, configDocument root t = .ok d₀ ∧ c.table.IsRenaming later.table old new ∧
      ∀ w, later.table.wrapperNamespace? w = some old → d₀.listsWrapper w = false := by
  obtain ⟨-, hname, -⟩ := exists_of_renamedConfig hedit
  obtain ⟨s, d₀, value, hd₀, hs, hconsistent, rfl, hvalue, -, hafter, rfl⟩ :=
    exists_renamed_settings hroot hload hedit hlater
  have hrenaming := hs.isRenaming hconsistent hafter hname hvalue hnew
  refine ⟨d₀, hd₀, hrenaming, fun w hstayed => ?_⟩
  by_contra hlists
  rw [hs.wrapperNamespace?_renamed, if_pos (Bool.not_eq_false _ ▸ hlists), Option.map_eq_some_iff]
    at hstayed
  obtain ⟨n, -, hn⟩ := hstayed
  split at hn
  · exact hrenaming.ne hn
  · contradiction

/-- What a renaming that succeeds has done. The edited configuration is in force, the documents that
it covers could all be read, and they are the ones that have moved. -/
theorem renameNamespace_of_success (hroot : root.IsResolved) (hordered : t.Ordered) {verbose : Bool}
    (hexit : (renameNamespace root t old new verbose walk).report.exit = .success) :
    let later := (renameNamespace root t old new verbose walk).tree
    ∃ d config, renamedConfig root t old new = .ok d ∧
      Config.load root (putConfig root t d) = .ok config ∧ Config.load root later = .ok config ∧
      (∀ s ∈ config.sources root t, s.IsReadable) ∧
      config.sources root later = (config.sources root t).map (Source.moved old new) ∧
      later = (putConfig root t d).update (Entry.movedIn old new (config.sources root t)) := by
  intro later
  cases hedit : renamedConfig root t old new with
  | error e =>
      rw [renameNamespace_of_refused hedit] at hexit
      contradiction
  | ok d =>
      cases hconfig : Config.load root (putConfig root t d) with
      | error e =>
          rw [renameNamespace_of_unloadable hedit hconfig] at hexit
          contradiction
      | ok config =>
          obtain ⟨htree, hsuccess⟩ := renameNamespace_of_loaded hedit hconfig verbose walk
          have hdone := hsuccess.mp hexit
          have hedited : (putConfig root t d).Ordered := hordered.put ..
          obtain ⟨-, hupdate⟩ := config.retarget_eq_update hedited hdone
          obtain ⟨hreadable, hmoved⟩ := config.sources_retarget hedited hdone
          have hload : Config.load root later = .ok config := by
            rw [show later = _ from htree, load_retarget hroot, hconfig]
          rw [← htree] at hupdate hmoved
          rw [Config.sources_putConfig] at hupdate hreadable hmoved
          exact ⟨d, config, rfl, hconfig, hload, hreadable, hmoved, hupdate⟩

/-- After a namespace has been renamed the project can be loaded, its documents have the same links,
moved along, and each of these leads where it led. There are two exceptions. A link in a wrapper
that stands for a built-in namespace stays behind if the configuration does not list the wrapper,
and a link with two slashes behind a name that is made of letters is a URL of that name. -/
theorem rename_keeps_destinations {p : Project} {verbose : Bool} (hroot : root.IsResolved)
    (hordered : t.Ordered) (hload : Project.load root t = .ok p)
    (hnew : p.config.table.roots.has new = false)
    (hlinks : ∀ links, p.scan t = .ok links → ∀ o ∈ links, o.link.CanMove new)
    (hexit : ((NamespaceAction.rename old new).run root t verbose walk).report.exit = .success) :
    let later := ((NamespaceAction.rename old new).run root t verbose walk).tree
    ∃ d p' links links', configDocument root t = .ok d ∧ Project.load root later = .ok p' ∧
      p.scan t = .ok links ∧ p'.scan later = .ok links' ∧
      List.Forall₂ (fun o o' => o'.source = o.source ∧ o'.link = o.link.moved old new ∧
        ((∀ mode, p'.resolver.resolve (o'.request mode) = p.resolver.resolve (o.request mode)) ∨
          o.StaysBehind d p.resolver p'.resolver old ∨
          o.SwitchesScheme o' p.resolver p'.resolver old new)) links links' := by
  intro later
  obtain ⟨c, hc, rfl⟩ := map_eq_ok_iff.mp hload
  obtain ⟨edited, config, hedit, hconfig, hlater, hreadable, hmoved, -⟩ :=
    renameNamespace_of_success hroot hordered hexit
  have hsame := Config.eq_of_load_renamed hroot hc hedit hconfig
  obtain ⟨d, hd, hrenaming, hunlisted⟩ := Config.isRenaming_of_load hroot hc hnew hedit hconfig
  have hsources (t : FileTree) : config.sources root t = c.sources root t := by rw [hsame]; rfl
  rw [hsources] at hreadable
  rw [hsources t] at hmoved
  obtain ⟨links, links', hscan, hscan', hpairs⟩ := Project.scan_moved hrenaming.isName_old
    hrenaming.isName_new ⟨root, c⟩ ⟨root, config⟩ hreadable hmoved hlinks
  have hload' : Project.load root later = .ok ⟨root, config⟩ := by
    rw [Project.load, show Config.load root later = _ from hlater]
    rfl
  have htables : (Project.resolver ⟨root, c⟩).table.IsRenaming
      (Project.resolver ⟨root, config⟩).table old new := hrenaming
  refine ⟨d, ⟨root, config⟩, links, links', hd, hload', hscan, hscan', hpairs.imp fun o o' h => ?_⟩
  obtain ⟨⟨hlink, hmove⟩, hsource, hfollows⟩ := h
  refine ⟨hsource, hfollows, ?_⟩
  rcases Occurrence.moved_cases htables (by rw [hsame]; rfl) (by rw [hsame]; rfl) hlink hmove
      hsource hfollows with hkept | ⟨⟨w, payload, htarget, hstayed⟩, hreroots⟩ | hurl
  · exact .inl hkept
  · exact .inr (.inl ⟨⟨w, payload, htarget, hunlisted w hstayed⟩, hreroots⟩)
  · exact .inr (.inr hurl)

/-- A project that overrides a built-in namespace and lists its wrapper, and in which one link names
the namespace and one uses the wrapper. -/
def overridingProject : FileTree where
  entries := [(["ws"], .directory), (["ws", ".colonlink.toml"],
    .file (.text "[namespaces]\nblocks = \"lib\"\n\n[wrappers]\nbrackets = \"blocks\"\n")),
    (["ws", "a.md"], .file (.text "[x](blocks:note) [y]([note])\n"))]

theorem rename_overridingProject :
    ((NamespaceAction.rename "blocks" "core").run ⟨"/ws"⟩ overridingProject false
      .byName).report.exit = .success := by
  decide +kernel

/-- Both links lead to the same file after the renaming. -/
theorem rename_overridden_namespace :
    let o := (NamespaceAction.rename "blocks" "core").run ⟨"/ws"⟩ overridingProject false .byName
    o.report.exit = .success ∧ ∃ p' links', Project.load ⟨"/ws"⟩ o.tree = .ok p' ∧
      p'.scan o.tree = .ok links' ∧
      links'.map (·.link) = [⟨"x", "core:note"⟩, ⟨"y", "[note]"⟩] ∧
      links'.map (fun l => p'.resolver.resolve (l.request .location)) =
        [.location ⟨"/ws/lib/note"⟩, .location ⟨"/ws/lib/note"⟩] := by
  let p : Project := ⟨⟨"/ws"⟩, { table :=
    { roots := [("blocks", "lib"), ("comps", "src/vcl-comps")]
      brackets := some "blocks"
      parens := some "comps" } }⟩
  have hload : Project.load ⟨"/ws"⟩ overridingProject = .ok p := by decide +kernel
  have hlisted : (configDocument ⟨"/ws"⟩ overridingProject).map (·.listsWrapper .brackets) =
      .ok true := by decide +kernel
  have hordered : overridingProject.Ordered := by decide +kernel
  have hscan : p.scan overridingProject = .ok [⟨⟨"x", "blocks:note"⟩, ⟨"/ws/a.md"⟩, 1, 1⟩,
      ⟨⟨"y", "[note]"⟩, ⟨"/ws/a.md"⟩, 1, 18⟩] := by decide +kernel
  have hlinks (links : List Occurrence) (h : p.scan overridingProject = .ok links) :
      ∀ o ∈ links, o.link.CanMove "core" := by
    rw [hscan] at h
    rw [← Except.ok.inj h]
    refine List.forall_mem_cons.mpr ⟨?_, List.forall_mem_singleton.mpr ?_⟩
    · exact ⟨by decide, by decide +kernel, by decide⟩
    · exact ⟨by decide, by decide +kernel, by decide⟩
  obtain ⟨d, p', links, links', hd, hload', hlinks', hscan', hpairs⟩ :=
    rename_keeps_destinations ⟨by decide, by decide⟩ hordered hload (by decide) hlinks
      rename_overridingProject
  rw [hscan] at hlinks'
  rw [← Except.ok.inj hlinks', List.forall₂_cons_left_iff] at hpairs
  obtain ⟨x, rest, ⟨-, hx, hxcases⟩, hpairs, rfl⟩ := hpairs
  obtain ⟨y, none, ⟨-, hy, hycases⟩, hnone, rfl⟩ := List.forall₂_cons_left_iff.mp hpairs
  obtain rfl := List.forall₂_nil_left_iff.mp hnone
  rw [hd] at hlisted
  have hkept {o o' : Occurrence} (hopener : o.link.target.head? ≠ some '(')
      (hslashes : ¬ ("blocks" : Text) ++ [':', '/', '/'] <+: o.canonical p.resolver)
      (h : (∀ mode, p'.resolver.resolve (o'.request mode) = p.resolver.resolve (o.request mode)) ∨
        o.StaysBehind d p.resolver p'.resolver "blocks" ∨
        o.SwitchesScheme o' p.resolver p'.resolver "blocks" "core") :
      p'.resolver.resolve (o'.request .location) = p.resolver.resolve (o.request .location) := by
    rcases h with hsame | ⟨⟨w, payload, htarget, hunlisted⟩, -⟩ | hurl
    · exact hsame .location
    · cases w with
      | brackets => exact absurd ((Except.ok.inj hlisted).symm.trans hunlisted) (by decide)
      | parens => exact absurd (congrArg List.head? htarget) hopener
    · exact absurd hurl.forms.before hslashes
  refine ⟨rename_overridingProject, p', _, hload', hscan', ?_, ?_⟩
  · rw [List.map_cons, List.map_singleton, hx, hy]
    decide
  · rw [List.map_cons, List.map_singleton, hkept (by decide) (by decide +kernel) hxcases,
      hkept (by decide) (by decide +kernel) hycases]
    decide +kernel

end Shorthand
