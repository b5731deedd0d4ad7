import Shorthand.Project
import Shorthand.Proofs.Fallible
import Shorthand.Proofs.FileTree.Order

/-!
The documents of a project as entries of its tree, each once and in the order of their routes. They
follow a replacement of entries, and an entry that is no document does not count.
-/

namespace Shorthand

/-- An entry below a directory, with its route from there. -/
def Route.below? (base : Route) (p : Route × Entry) : Option (Route × Entry) :=
  match List.isPrefixOf? base p.1 with
  | none | some [] => none
  | some rest => some (rest, p.2)

theorem Route.below?_eq_some_iff {base : Route} {p q : Route × Entry} :
    below? base p = some q ↔ q.1 ≠ [] ∧ p = (base ++ q.1, q.2) := by
  obtain ⟨r, e⟩ := p
  obtain ⟨rest, e'⟩ := q
  unfold below?
  constructor
  · intro h
    split at h
    · contradiction
    · contradiction
    · rename_i more hne hstarts
      cases h
      obtain rfl := List.isPrefixOf?_eq_some_iff_append_eq.mp hstarts
      exact ⟨hne, rfl⟩
  · rintro ⟨hne, h⟩
    cases h
    have hstarts : List.isPrefixOf? base (base ++ rest) = some rest :=
      List.isPrefixOf?_eq_some_iff_append_eq.mpr rfl
    simp only [hstarts]

theorem Route.below?_replace (base r : Route) (e e' : Entry) :
    below? base (r, e') = (below? base (r, e)).map fun q => (q.1, e') := by
  unfold below?
  simp only
  split <;> rfl

/-- Walking from the project one comes to the entry at a route, the project itself being at the
empty one, and takes it for a document: it is named like one and the configuration covers it. -/
structure Project.Visits (p : Project) (t : FileTree) (r : Route) (e : Entry) : Prop where
  found : t.get? (FileTree.routeOf p.root ++ r) = some e
  isNamed : ∃ name, (FileTree.routeOf p.root ++ r).getLast? = some name ∧ isDocumentName name = true
  isListed : FileTree.isListed p.root r = true
  isCovered : p.config.covers (Text.joinWith ['/'] r) = true

/-- The entry at a route from the project, if it is taken for a document. -/
def Source.of? (root : Path) (p : Route × Entry) : Option Source :=
  if FileTree.isDocument root p.1 then some (ofRoute root p.1 p.2) else none

namespace FileTree

variable {t : FileTree} {root : Path} {base route : Route}

theorem isDocument_iff : isDocument root route = true ↔
    (∃ name, (routeOf root ++ route).getLast? = some name ∧ isDocumentName name = true) ∧
      isListed root route = true := by
  rw [isDocument, Bool.and_eq_true]
  refine and_congr_left' ?_
  cases (routeOf root ++ route).getLast? <;> simp

theorem under_eq (t : FileTree) (base : Route) :
    t.under base = t.entries.filterMap (base.below? ·) :=
  rfl

theorem sources_eq (t : FileTree) (root : Path) :
    t.sources root = (([], .directory) :: t.under (routeOf root)).filterMap (Source.of? root) :=
  rfl

end FileTree

theorem Source.of?_eq_some_iff {root : Path} {p : Route × Entry} {s : Source} :
    of? root p = some s ↔ FileTree.isDocument root p.1 = true ∧ s = ofRoute root p.1 p.2 := by
  unfold of?
  split
  · rename_i hdocument
    simp only [hdocument, true_and, Option.some.injEq]
    exact eq_comm
  · rename_i hdocument
    simp [hdocument]

theorem Source.of?_route {root : Path} {p : Route × Entry} {s : Source} (h : of? root p = some s) :
    s.route = FileTree.routeOf root ++ p.1 ∧ s.entry = p.2 := by
  obtain ⟨-, rfl⟩ := of?_eq_some_iff.mp h
  exact ⟨rfl, rfl⟩

theorem Source.of?_replace (root : Path) (r : Route) (e e' : Entry) :
    of? root (r, e') = (of? root (r, e)).map fun s => { s with entry := e' } := by
  unfold of?
  simp only
  split <;> rfl

theorem Source.of?_eq_none {root : Path} {p : Route × Entry} {name : Text}
    (hname : (FileTree.routeOf root ++ p.1).getLast? = some name)
    (hdocument : isDocumentName name = false) : of? root p = none := by
  simp [of?, FileTree.isDocument, hname, hdocument]

namespace FileTree

variable {t : FileTree} {root : Path} {base route : Route}

/-- A source is an entry below the project, or it is the directory of the project itself. -/
theorem mem_sources {s : Source} (h : s ∈ t.sources root) :
    (s.route = routeOf root ∧ s.entry = .directory) ∨
      (s.route, s.entry) ∈ t.entries ∧ ∃ more, more ≠ [] ∧ s.route = routeOf root ++ more := by
  rw [sources_eq] at h
  obtain ⟨p, hp, hs⟩ := List.mem_filterMap.mp h
  obtain ⟨hroute, hentry⟩ := Source.of?_route hs
  rcases List.mem_cons.mp hp with rfl | hunder
  · exact .inl ⟨hroute.trans (List.append_nil _), hentry⟩
  · obtain ⟨q, hq, hbelow⟩ := List.mem_filterMap.mp hunder
    obtain ⟨hne, rfl⟩ := Route.below?_eq_some_iff.mp hbelow
    rw [hroute, hentry]
    exact .inr ⟨hq, p.1, hne, rfl⟩

/-- A source is named like a document. -/
theorem mem_sources_route {s : Source} (h : s ∈ t.sources root) :
    ∃ name, s.route.getLast? = some name ∧ isDocumentName name = true := by
  rw [sources_eq] at h
  obtain ⟨p, -, hs⟩ := List.mem_filterMap.mp h
  obtain ⟨hdocument, rfl⟩ := Source.of?_eq_some_iff.mp hs
  exact (isDocument_iff.mp hdocument).1

theorem mem_under {p : Route × Entry} :
    p ∈ t.under base ↔ p.1 ≠ [] ∧ (base ++ p.1, p.2) ∈ t.entries := by
  rw [under_eq, List.mem_filterMap]
  simp only [Route.below?_eq_some_iff]
  constructor
  · rintro ⟨_, hentry, hne, rfl⟩
    exact ⟨hne, hentry⟩
  · rintro ⟨hne, hentry⟩
    exact ⟨_, hentry, hne, rfl⟩

/-- The sources of a project are what one comes to in walking through it, covered or not. -/
theorem mem_sources_iff (h : t.Ordered) (hroot : t.get? (routeOf root) = some .directory)
    {s : Source} : s ∈ t.sources root ↔
      ∃ r e, t.get? (routeOf root ++ r) = some e ∧ isDocument root r = true ∧
        s = .ofRoute root r e := by
  have hwalk {p : Route × Entry} : p ∈ ([], Entry.directory) :: t.under (routeOf root) ↔
      t.get? (routeOf root ++ p.1) = some p.2 := by
    obtain ⟨r, e⟩ := p
    rw [List.mem_cons, mem_under]
    by_cases hr : r = []
    · subst hr
      simp [hroot, eq_comm]
    · rw [h.get?_eq_some_iff (List.append_ne_nil_of_right_ne_nil _ hr)]
      simp [hr]
  rw [sources_eq, List.mem_filterMap]
  simp only [hwalk, Source.of?_eq_some_iff, Prod.exists]

/-- Sources come in the order of their routes. -/
theorem sources_pairwise (h : t.Ordered) (root : Path) :
    (t.sources root).Pairwise fun s s' => s.route < s'.route := by
  have hunder : (t.under (routeOf root)).Pairwise fun p q =>
      routeOf root ++ p.1 < routeOf root ++ q.1 := by
    rw [under_eq]
    refine List.Pairwise.filterMap _ ?_ (List.pairwise_map.mp h)
    intro p q hbefore p' hp q' hq
    obtain ⟨-, rfl⟩ := Route.below?_eq_some_iff.mp hp
    obtain ⟨-, rfl⟩ := Route.below?_eq_some_iff.mp hq
    exact Route.before_iff.mp hbefore
  rw [sources_eq]
  refine List.Pairwise.filterMap _ ?_ (List.pairwise_cons.mpr ⟨fun p hp => ?_, hunder⟩)
  · intro p q hlt s hs s' hs'
    rw [(Source.of?_route hs).1, (Source.of?_route hs').1]
    exact hlt
  · obtain ⟨name, more, hne⟩ := List.exists_cons_of_ne_nil (mem_under.mp hp).1
    rw [hne]
    exact List.append_left_lt (List.nil_lt_cons name more)

/-- No two sources have the same route. -/
theorem sources_nodup (h : t.Ordered) (root : Path) : ((t.sources root).map (·.route)).Nodup :=
  List.pairwise_map.mpr ((sources_pairwise h root).imp fun {_ _} hlt => hlt.ne)

theorem under_update (f : Route → Entry → Entry) (t : FileTree) (base : Route) :
    (t.update f).under base = (t.under base).map fun p => (p.1, f (base ++ p.1) p.2) := by
  rw [under_eq, under_eq, update, List.filterMap_map, List.map_filterMap]
  refine List.filterMap_congr fun p _ => ?_
  rw [Function.comp_apply, Route.below?_replace base p.1 p.2]
  cases hq : base.below? p with
  | none => rfl
  | some q =>
      obtain ⟨-, rfl⟩ := Route.below?_eq_some_iff.mp hq
      rfl

/-- Sources take part in a replacement of entries. -/
theorem sources_update {f : Route → Entry → Entry} (hf : ∀ r, f r .directory = .directory)
    (t : FileTree) (root : Path) : (t.update f).sources root =
      (t.sources root).map fun s => { s with entry := f s.route s.entry } := by
  have hall : ([], Entry.directory) :: (t.update f).under (routeOf root) =
      (([], Entry.directory) :: t.under (routeOf root)).map fun p =>
        (p.1, f (routeOf root ++ p.1) p.2) := by
    rw [List.map_cons, hf, under_update]
  rw [sources_eq, sources_eq, hall, List.filterMap_map, List.map_filterMap]
  refine List.filterMap_congr fun p _ => ?_
  rw [Function.comp_apply, Source.of?_replace root p.1 p.2]
  cases hs : Source.of? root p with
  | none => rfl
  | some s =>
      obtain ⟨hroute, hentry⟩ := Source.of?_route hs
      rw [Option.map_some, Option.map_some, hroute, hentry]

theorem filterMap_place {α : Type} {f : Route × Entry → Option α} (h : ∀ e, f (route, e) = none)
    (entry : Entry) (l : List (Route × Entry)) :
    (place route entry l).filterMap f = l.filterMap f := by
  induction l with
  | nil => exact List.filterMap_cons_none (h entry)
  | cons p l ih =>
      obtain ⟨r, e⟩ := p
      rw [place]
      split
      · rename_i hr
        rw [List.filterMap_cons_none (h entry), hr, List.filterMap_cons_none (h e)]
      · split
        · rw [List.filterMap_cons_none (h entry)]
        · rw [List.filterMap_cons, ih, List.filterMap_cons]

/-- An entry that is not named like a document is no source. -/
theorem sources_put {name : Text} (hname : route.getLast? = some name)
    (hdocument : isDocumentName name = false) (t : FileTree) (entry : Entry) (root : Path) :
    (t.put route entry).sources root = t.sources root := by
  have hnone (e : Entry) :
      ((routeOf root).below? (route, e)).bind (Source.of? root) = none := by
    rw [Option.bind_eq_none_iff]
    intro q hq
    obtain ⟨-, h⟩ := Route.below?_eq_some_iff.mp hq
    cases h
    exact Source.of?_eq_none hname hdocument
  rw [sources_eq, sources_eq, List.filterMap_cons, List.filterMap_cons, under_eq, under_eq,
    List.filterMap_filterMap, List.filterMap_filterMap, put, filterMap_place hnone]

end FileTree

theorem Config.mem_sources_route_ne_nil {c : Config} {t : FileTree} {root : Path} {s : Source}
    (h : s ∈ c.sources root t) : s.route ≠ [] := by
  obtain ⟨name, hname, -⟩ := FileTree.mem_sources_route (List.mem_filter.mp h).1
  rintro hnil
  rw [hnil] at hname
  contradiction

theorem Project.Visits.isDocument {p : Project} {t : FileTree} {r : Route} {e : Entry}
    (h : p.Visits t r e) : FileTree.isDocument p.root r = true :=
  FileTree.isDocument_iff.mpr ⟨h.isNamed, h.isListed⟩

theorem Config.mem_sources_iff {c : Config} {t : FileTree} {root : Path} (h : t.Ordered)
    (hroot : t.get? (FileTree.routeOf root) = some .directory) {s : Source} :
    s ∈ c.sources root t ↔ ∃ r e, Project.Visits ⟨root, c⟩ t r e ∧ s = .ofRoute root r e := by
  rw [sources, List.mem_filter, FileTree.mem_sources_iff h hroot]
  constructor
  · rintro ⟨⟨r, e, hfound, hdocument, rfl⟩, hcovered⟩
    obtain ⟨hnamed, hlisted⟩ := FileTree.isDocument_iff.mp hdocument
    exact ⟨r, e, ⟨hfound, hnamed, hlisted, hcovered⟩, rfl⟩
  · rintro ⟨r, e, hvisits, rfl⟩
    exact ⟨⟨r, e, hvisits.found, hvisits.isDocument, rfl⟩, hvisits.isCovered⟩

/-- What one comes to below the project is a source. -/
theorem Project.Visits.mem_sources {p : Project} {t : FileTree} {r : Route} {e : Entry}
    (h : p.Visits t r e) (hne : r ≠ []) :
    Source.ofRoute p.root r e ∈ p.config.sources p.root t := by
  have hroute : FileTree.routeOf p.root ++ r ≠ [] := List.append_ne_nil_of_right_ne_nil _ hne
  have hunder : (r, e) ∈ t.under (FileTree.routeOf p.root) :=
    FileTree.mem_under.mpr ⟨hne, FileTree.mem_of_get? hroute h.found⟩
  refine List.mem_filter.mpr ⟨?_, h.isCovered⟩
  rw [FileTree.sources_eq]
  exact List.mem_filterMap.mpr
    ⟨(r, e), List.mem_cons_of_mem _ hunder, Source.of?_eq_some_iff.mpr ⟨h.isDocument, rfl⟩⟩

/-- A source that is not the project's directory is come to in walking through it. -/
theorem Config.visits_of_mem_sources {c : Config} {t : FileTree} {root : Path} (h : t.Ordered)
    {s : Source} (hs : s ∈ c.sources root t) (hentry : s.entry ≠ .directory) :
    ∃ r, Project.Visits ⟨root, c⟩ t r s.entry ∧ s = .ofRoute root r s.entry := by
  obtain ⟨hs, hcovered⟩ := List.mem_filter.mp hs
  rw [FileTree.sources_eq] at hs
  obtain ⟨⟨r, e⟩, hwalk, hsource⟩ := List.mem_filterMap.mp hs
  obtain ⟨hdocument, rfl⟩ := Source.of?_eq_some_iff.mp hsource
  obtain ⟨hnamed, hlisted⟩ := FileTree.isDocument_iff.mp hdocument
  rcases List.mem_cons.mp hwalk with hroot | hunder
  · cases hroot
    exact absurd rfl hentry
  · obtain ⟨hr, hmem⟩ := FileTree.mem_under.mp hunder
    have hfound := (h.get?_eq_some_iff (List.append_ne_nil_of_right_ne_nil _ hr)).mpr hmem
    exact ⟨r, ⟨hfound, hnamed, hlisted, hcovered⟩, rfl⟩

/-- A source that is not the project's directory is found at its route. -/
theorem Config.get?_of_mem_sources {c : Config} {t : FileTree} {root : Path} (h : t.Ordered)
    {s : Source} (hs : s ∈ c.sources root t) (hentry : s.entry ≠ .directory) :
    t.get? s.route = some s.entry := by
  obtain ⟨r, hvisits, hsource⟩ := visits_of_mem_sources h hs hentry
  have hroute : s.route = FileTree.routeOf root ++ r := congrArg Source.route hsource
  rw [hroute]
  exact hvisits.found

theorem Entry.read_eq_ok_iff {e : Entry} {content : Text} :
    e.read = .ok content ↔ e = .file (.text content) := by
  refine ⟨fun h => ?_, fun h => h ▸ rfl⟩
  cases e with
  | directory => contradiction
  | file c =>
      cases c with
      | text s => cases h; rfl
      | binary bytes => contradiction

namespace Source

theorem read_eq_ok_iff {s : Source} {content : Text} : s.read = .ok content ↔
    s.path.text.byteLength ≤ FileTree.pathLimit ∧ s.entry = .file (.text content) := by
  unfold read
  split
  · rename_i hlong
    exact ⟨nofun, fun h => absurd hlong (Nat.not_lt.mpr h.1)⟩
  · rename_i hshort
    rw [Entry.read_eq_ok_iff]
    exact (and_iff_right (Nat.not_lt.mp hshort)).symm

def IsReadable (s : Source) : Prop :=
  ∃ content, s.read = .ok content

/-- The links of a document; none if it cannot be read. -/
def links (s : Source) : List Occurrence :=
  match s.read with
  | .ok content => Occurrence.ofDocument s.path content
  | .error _ => []

theorem links_of_read {s : Source} {content : Text} (h : s.read = .ok content) :
    s.links = Occurrence.ofDocument s.path content := by
  rw [links, h]

end Source

namespace Project

variable {p : Project} {t : FileTree}

/-- Where all documents can be read, the links that are found are those of the documents. -/
theorem scan_eq (h : ∀ s ∈ p.config.sources p.root t, s.IsReadable) :
    p.scan t = .ok ((p.config.sources p.root t).flatMap Source.links) := by
  have hlinks : ∀ s ∈ p.config.sources p.root t,
      s.read.map (Occurrence.ofDocument s.path) = .ok s.links := by
    intro s hs
    obtain ⟨content, hread⟩ := h s hs
    rw [Source.links_of_read hread, hread]
    rfl
  rw [scan, mapM_eq_ok hlinks, List.flatMap_def]
  rfl

/-- Scanning needs every document, and nothing else. -/
theorem exists_scan_iff :
    (∃ links, p.scan t = .ok links) ↔ ∀ s ∈ p.config.sources p.root t, s.IsReadable := by
  refine ⟨fun ⟨links, hscan⟩ s hs => ?_, fun h => ⟨_, scan_eq h⟩⟩
  obtain ⟨found, hfound, -⟩ := bind_eq_ok_iff.mp hscan
  obtain ⟨_, hread⟩ := exists_mapM_eq_ok_iff.mp ⟨found, hfound⟩ s hs
  obtain ⟨content, hcontent, -⟩ := map_eq_ok_iff.mp hread
  exact ⟨content, hcontent⟩

end Project
end Shorthand
