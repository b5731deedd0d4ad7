import Shorthand.FileTree
import Shorthand.Proofs.Registry

/-!
The order of a tree's entries. It makes the routes distinct, and putting an entry keeps it: an entry
that is there already is replaced where it stands.
-/

namespace Shorthand

theorem Route.before_iff {a b : Route} : a.before b = true ↔ a < b := by
  rw [Route.before, List.lex_eq_true_iff_lex]
  simp only [Text.before_iff]
  rfl

namespace FileTree

variable {t : FileTree} {route : Route} {entry : Entry}

def routes (t : FileTree) : List Route :=
  t.entries.map (·.1)

/-- Each entry comes before those that follow it. -/
def Ordered (t : FileTree) : Prop :=
  t.routes.Pairwise fun a b => a.before b = true

instance (t : FileTree) : Decidable t.Ordered :=
  inferInstanceAs (Decidable (List.Pairwise _ _))

theorem Ordered.nodup (h : t.Ordered) : t.routes.Nodup :=
  h.imp fun {_ _} hab => (Route.before_iff.mp hab).ne

theorem mem_routes (h : (route, entry) ∈ t.entries) : route ∈ t.routes :=
  List.mem_map_of_mem h

/-- There is one entry at a route. -/
theorem Ordered.unique (h : t.Ordered) {e : Entry} (hentry : (route, entry) ∈ t.entries)
    (he : (route, e) ∈ t.entries) : e = entry :=
  congrArg Prod.snd (List.inj_on_of_nodup_map h.nodup he hentry rfl)

theorem mem_of_get? (hroute : route ≠ []) (h : t.get? route = some entry) :
    (route, entry) ∈ t.entries := by
  rw [get?, if_neg hroute] at h
  obtain ⟨l⟩ := t
  induction l with
  | nil => contradiction
  | cons p l ih =>
      obtain ⟨r, e⟩ := p
      rw [lookup] at h
      split at h
      · rename_i hr
        cases h
        rw [hr]
        exact List.mem_cons_self
      · exact List.mem_cons_of_mem _ (ih h)

theorem Ordered.get?_eq_some_iff (h : t.Ordered) (hroute : route ≠ []) :
    t.get? route = some entry ↔ (route, entry) ∈ t.entries := by
  refine ⟨mem_of_get? hroute, fun hentry => ?_⟩
  cases hget : t.get? route with
  | some e => rw [h.unique hentry (mem_of_get? hroute hget)]
  | none =>
      rw [get?, if_neg hroute] at hget
      obtain ⟨l⟩ := t
      clear h
      induction l with
      | nil => contradiction
      | cons p l ih =>
          rw [lookup] at hget
          split at hget
          · contradiction
          · rename_i hr
            rcases List.mem_cons.mp hentry with rfl | hentry
            · exact absurd rfl hr
            · exact ih hentry hget

theorem mem_routes_place {r : Route} {l : List (Route × Entry)}
    (h : r ∈ (place route entry l).map (·.1)) : r = route ∨ r ∈ l.map (·.1) := by
  induction l with
  | nil => exact .inl (List.mem_singleton.mp h)
  | cons p l ih =>
      obtain ⟨r', e⟩ := p
      rw [place] at h
      split at h
      · exact (List.mem_cons.mp h).imp_right (List.mem_cons_of_mem _)
      · split at h
        · exact List.mem_cons.mp h
        · rcases List.mem_cons.mp h with rfl | h
          · exact .inr List.mem_cons_self
          · exact (ih h).imp_right (List.mem_cons_of_mem _)

theorem Ordered.put (h : t.Ordered) (route : Route) (entry : Entry) :
    (t.put route entry).Ordered := by
  obtain ⟨l⟩ := t
  change ((place route entry l).map (·.1)).Pairwise _
  change (l.map (·.1)).Pairwise _ at h
  induction l with
  | nil => exact List.pairwise_singleton ..
  | cons p l ih =>
      obtain ⟨r, e⟩ := p
      obtain ⟨hr, hl⟩ := List.pairwise_cons.mp h
      rw [place]
      split
      · rename_i heq
        exact List.pairwise_cons.mpr ⟨fun r' hr' => heq ▸ hr r' hr', hl⟩
      · rename_i hne
        split
        · rename_i hbefore
          refine List.pairwise_cons.mpr ⟨fun r' hr' => ?_, h⟩
          rcases List.mem_cons.mp hr' with rfl | hr'
          · exact hbefore
          · exact Route.before_iff.mpr ((Route.before_iff.mp hbefore).trans
              (Route.before_iff.mp (hr r' hr')))
        · rename_i hafter
          refine List.pairwise_cons.mpr ⟨fun r' hr' => ?_, ih hl⟩
          rcases mem_routes_place hr' with rfl | hr'
          · rw [Route.before_iff] at hafter ⊢
            exact lt_of_le_of_ne (not_lt.mp hafter) hne
          · exact hr r' hr'

/-- Every entry replaced by what a function makes of it. -/
def update (f : Route → Entry → Entry) (t : FileTree) : FileTree :=
  ⟨t.entries.map fun p => (p.1, f p.1 p.2)⟩

theorem routes_update (f : Route → Entry → Entry) (t : FileTree) :
    (t.update f).routes = t.routes := by
  simp [routes, update]

theorem Ordered.update (h : t.Ordered) (f : Route → Entry → Entry) : (t.update f).Ordered := by
  rw [Ordered, routes_update]
  exact h

theorem update_congr {f g : Route → Entry → Entry} (h : ∀ p ∈ t.entries, f p.1 p.2 = g p.1 p.2) :
    t.update f = t.update g :=
  congrArg FileTree.mk (List.map_congr_left fun p hp => by rw [h p hp])

theorem update_eq_self {f : Route → Entry → Entry} (h : ∀ p ∈ t.entries, f p.1 p.2 = p.2) :
    t.update f = t :=
  congrArg FileTree.mk ((List.map_congr_left fun p hp => by rw [h p hp]; rfl).trans (List.map_id _))

theorem mem_update {f : Route → Entry → Entry} (h : (route, entry) ∈ t.entries) :
    (route, f route entry) ∈ (t.update f).entries :=
  List.mem_map.mpr ⟨_, h, rfl⟩

theorem get?_update (f : Route → Entry → Entry) (hroute : route ≠ []) (t : FileTree) :
    (t.update f).get? route = (t.get? route).map (f route) := by
  obtain ⟨l⟩ := t
  rw [get?, get?, if_neg hroute, if_neg hroute, update]
  induction l with
  | nil => rfl
  | cons p l ih =>
      rw [List.map_cons, lookup, lookup]
      split
      · rename_i hr
        rw [hr, Option.map_some]
      · exact ih

theorem update_update (f g : Route → Entry → Entry) (t : FileTree) :
    (t.update f).update g = t.update fun r e => g r (f r e) := by
  simp [update]

theorem put_eq_update (h : t.Ordered) (hroute : route ∈ t.routes) (entry : Entry) :
    t.put route entry = t.update fun r e => if r = route then entry else e := by
  obtain ⟨l⟩ := t
  refine congrArg FileTree.mk ?_
  change (l.map (·.1)).Pairwise _ at h
  change route ∈ l.map (·.1) at hroute
  simp only
  induction l with
  | nil => contradiction
  | cons p l ih =>
      obtain ⟨r, e⟩ := p
      obtain ⟨hr, hl⟩ := List.pairwise_cons.mp h
      rw [place, List.map_cons]
      split
      · rename_i heq
        subst heq
        have hrest : (l.map fun p => (p.1, if p.1 = r then entry else p.2)) = l := by
          refine (List.map_congr_left fun p hp => ?_).trans (List.map_id l)
          rw [if_neg (Route.before_iff.mp (hr p.1 (List.mem_map_of_mem hp))).ne']
          rfl
        rw [hrest]
      · rename_i hne
        have hmem := (List.mem_cons.mp hroute).resolve_left (Ne.symm hne)
        have hbefore := Route.before_iff.mp (hr route hmem)
        rw [if_neg (fun hafter => (Route.before_iff.mp hafter).asymm hbefore), ih hl hmem]

theorem put_self (h : t.Ordered) (hentry : (route, entry) ∈ t.entries) : t.put route entry = t := by
  rw [put_eq_update h (mem_routes hentry)]
  refine update_eq_self fun p hp => ?_
  split
  · rename_i hroute
    exact (h.unique hentry (hroute ▸ hp)).symm
  · rfl

end FileTree
end Shorthand
