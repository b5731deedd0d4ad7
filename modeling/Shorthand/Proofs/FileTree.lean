import Mathlib.Data.List.Basic
import Shorthand.FileTree

/-!
Lookups in file trees. Putting an entry changes what is found at its own route and nowhere else.
-/

namespace Shorthand
namespace FileTree

theorem lookup_place (route other : Route) (entry : Entry) (l : List (Route × Entry)) :
    lookup other (place route entry l) =
      if other = route then some entry else lookup other l := by
  induction l with
  | nil => simp [place, lookup, eq_comm]
  | cons first l ih =>
      obtain ⟨r, e⟩ := first
      by_cases hr : r = route
      · subst hr
        simp only [place, if_true, lookup, eq_comm (a := other)]
        split <;> rfl
      · simp only [place, if_neg hr]
        split
        · simp only [lookup, eq_comm (a := other)]
        · simp only [lookup, ih]
          split
          · rename_i ho
            subst ho
            rw [if_neg hr]
          · rfl

theorem get?_put {route : Route} (h : route ≠ []) (t : FileTree) (entry : Entry) (other : Route) :
    (t.put route entry).get? other = if other = route then some entry else t.get? other := by
  unfold get? put
  by_cases ho : other = []
  · subst ho
    simp [h.symm]
  · rw [if_neg ho, if_neg ho, lookup_place]

end FileTree
end Shorthand
