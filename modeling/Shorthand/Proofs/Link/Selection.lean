import Mathlib.Algebra.Group.Nat.Defs
import Mathlib.Data.List.Forall2
import Shorthand.Proofs.Link.Pieces
import Shorthand.Proofs.Text

/-!
The selection of links in a line: the first link at or after a cursor is taken and the cursor
moves past it. Which links stand where is said by the grammar alone, so the selection does not
depend on how they are recognized.
-/

namespace Shorthand
namespace Link

/-- The link stands in the line with its bracket at byte `p`. -/
def StandsAt (l : Link) (line : Text) (p : Nat) : Prop :=
  l.IsLink ∧ ∃ before after, line = before ++ (l.written ++ after) ∧ before.byteLength = p

theorem StandsAt.unique {line : Text} {p : Nat} {l m : Link} (hl : l.StandsAt line p)
    (hm : m.StandsAt line p) : l = m := by
  obtain ⟨hlink, before, after, hs, hp⟩ := hl
  obtain ⟨hlink', before', after', hs', hp'⟩ := hm
  have hsame := hs.symm.trans hs'
  obtain rfl := Text.eq_of_append_eq hsame (hp.trans hp'.symm)
  have hfound := hlink.atStart?_written after
  rw [List.append_cancel_left hsame, hlink'.atStart?_written after'] at hfound
  exact (Option.some.inj hfound).symm

/-- The links that are taken from a cursor on, each with the byte of its bracket. -/
inductive Selected (line : Text) : (cursor : Nat) → List (Nat × Link) → Prop
  | done {cursor : Nat} :
      (∀ p (l : Link), cursor ≤ p → ¬ l.StandsAt line p) → Selected line cursor []
  | next {cursor p : Nat} {l : Link} {more : List (Nat × Link)} :
      cursor ≤ p → l.StandsAt line p →
      (∀ q (m : Link), cursor ≤ q → m.StandsAt line q → p ≤ q) →
      Selected line (p + l.written.byteLength) more → Selected line cursor ((p, l) :: more)

theorem Selected.unique {line : Text} {cursor : Nat} {found found' : List (Nat × Link)}
    (h : Selected line cursor found) (h' : Selected line cursor found') : found = found' := by
  induction h generalizing found' with
  | done hnone =>
      cases h' with
      | done _ => rfl
      | next hp hl _ _ => exact absurd hl (hnone _ _ hp)
  | next hp hl hleast _ ih =>
      cases h' with
      | done hnone => exact absurd hl (hnone _ _ hp)
      | next hp' hl' hleast' hmore' =>
          obtain rfl := Nat.le_antisymm (hleast _ _ hp' hl') (hleast' _ _ hp hl)
          obtain rfl := hl.unique hl'
          rw [ih hmore']

/-- Bytes where no link stands can be passed over. -/
theorem Selected.of_later {line : Text} {cursor later : Nat} {found : List (Nat × Link)}
    (h : Selected line later found) (hle : cursor ≤ later)
    (hnone : ∀ p (l : Link), cursor ≤ p → l.StandsAt line p → later ≤ p) :
    Selected line cursor found := by
  cases h with
  | done hlater => exact .done fun p l hp hl => hlater p l (hnone p l hp hl) hl
  | next hp hl hleast hmore =>
      exact .next (hle.trans hp) hl (fun q m hq hm => hleast q m (hnone q m hq hm) hm) hmore

/-- A character at which no link starts is passed over with all its bytes. -/
theorem StandsAt.after_plain {before rest : Text} {c : Char} (h : atStart? (c :: rest) = none)
    {l : Link} {p : Nat} (hp : before.byteLength ≤ p) (hl : l.StandsAt (before ++ c :: rest) p) :
    before.byteLength + c.utf8Size ≤ p := by
  obtain ⟨hlink, before', after, hs, rfl⟩ := hl
  have not_here : before' ≠ before := by
    rintro rfl
    rw [List.append_cancel_left hs, hlink.atStart?_written] at h
    contradiction
  -- Its byte says that the link starts no earlier than `before` ends.
  rcases List.append_eq_append_iff.mp hs with ⟨e, rfl, he⟩ | ⟨e, rfl, -⟩
  · cases e with
    | nil => exact absurd (List.append_nil before) not_here
    | cons d e =>
        cases he
        simp only [Text.byteLength_append, Text.byteLength]
        omega
  · have hle := Text.byteLength_append before' e
    exact absurd (Text.eq_of_append_eq hs.symm (by omega)) not_here

theorem selected_linksFrom (before s : Text) :
    Selected (before ++ s) before.byteLength
      (Piece.linksFrom before.byteLength (Piece.ofLine s)) := by
  induction s using Piece.line_induction generalizing before with
  | nil =>
      refine .done fun p l hp hl => ?_
      obtain ⟨-, before', after, hs, rfl⟩ := hl
      have hpos : 0 < l.written.byteLength := Text.byteLength_pos (List.cons_ne_nil _ _)
      have hlen := congrArg Text.byteLength hs
      simp only [Text.byteLength_append, Text.byteLength] at hlen
      omega
  | link l rest hlink ih =>
      rw [Piece.ofLine_link hlink, Piece.linksFrom]
      refine .next (Nat.le_refl _) ⟨hlink, before, rest, rfl, rfl⟩ (fun q m hq _ => hq) ?_
      simpa using ih (before ++ l.written)
  | plain c rest hnone ih =>
      rw [Piece.ofLine_plain hnone, Piece.linksFrom]
      have hlater := ih (before ++ [c])
      simp only [Text.byteLength_append, Text.byteLength, Nat.add_zero, List.append_assoc,
        List.singleton_append] at hlater
      exact hlater.of_later (Nat.le_add_right _ _) fun p l hp hl => hl.after_plain hnone hp

/-- The pieces of a line hold the selection of its links and nothing else does. -/
theorem selected_iff {line : Text} {found : List (Nat × Link)} :
    Selected line 0 found ↔ found = Piece.linksFrom 0 (Piece.ofLine line) :=
  ⟨fun h => h.unique (selected_linksFrom [] line), fun h => h ▸ selected_linksFrom [] line⟩

theorem forall₂_selected_iff {lines : List Text} {selections : List (List (Nat × Link))} :
    List.Forall₂ (fun line links => Selected line 0 links) lines selections ↔
      selections = lines.map fun line => Piece.linksFrom 0 (Piece.ofLine line) := by
  have hmap := List.forall₂_map_left_iff (R := Eq) (l := lines) (u := selections)
    (f := fun line => Piece.linksFrom 0 (Piece.ofLine line))
  rw [List.forall₂_eq_eq_eq, eq_comm] at hmap
  rw [hmap]
  simp only [selected_iff, eq_comm]

end Link

namespace Occurrence

theorem ofDocument_eq_flatMap (source : Path) (content : Text) :
    ofDocument source content =
      ((content.lines.map Text.chomp).map fun line =>
        Piece.linksFrom 0 (Piece.ofLine line)).zipIdx.flatMap
        fun (links, n) => links.map fun (p, l) =>
          { link := l, source, line := position n, column := position p } := by
  simp only [ofDocument, ofLine, List.map_map, List.zipIdx_map, List.flatMap_map]
  rfl

/-- Scanning a document accepts exactly the grammar: in each line it takes the selection of the
links that stand there, of which no two share a place. Lines and columns count from one, columns
in bytes, and both stop at the largest 32-bit number. -/
theorem ofDocument_selects_links (source : Path) (content : Text) :
    (∀ (line : Text) (p : Nat) (l m : Link), l.StandsAt line p → m.StandsAt line p → l = m) ∧
      ∀ found : List Occurrence, found = ofDocument source content ↔
        ∃ lines selections, content.HasLines lines ∧
          List.Forall₂ (fun line links => Link.Selected line 0 links) lines selections ∧
          found = selections.zipIdx.flatMap fun (links, n) => links.map fun (p, l) =>
            { link := l, source, line := min (n + 1) (2 ^ 32 - 1),
              column := min (p + 1) (2 ^ 32 - 1) } := by
  refine ⟨fun line p l m hl hm => hl.unique hm, fun found => ?_⟩
  constructor
  · rintro rfl
    exact ⟨_, _, Text.hasLines_iff.mpr rfl, Link.forall₂_selected_iff.mpr rfl,
      ofDocument_eq_flatMap source content⟩
  · rintro ⟨lines, selections, hlines, hselected, rfl⟩
    rw [ofDocument_eq_flatMap, ← Text.hasLines_iff.mp hlines,
      ← Link.forall₂_selected_iff.mp hselected]
    rfl

/-- A bracket in a label, a group in a target, a letter of two bytes and a carriage return. -/
theorem ofDocument_selects_links_two_bytes :
    ∃ lines selections, Text.HasLines "é[a[b](c(d)e)\r\n" lines ∧
      List.Forall₂ (fun line links => Link.Selected line 0 links) lines selections ∧
      [{ link := ⟨"a[b", "c(d)e"⟩, source := ⟨"p.md"⟩, line := 1, column := 3 }] =
        selections.zipIdx.flatMap fun (links, n) => links.map fun (p, l) =>
          { link := l, source := ⟨"p.md"⟩, line := min (n + 1) (2 ^ 32 - 1),
            column := min (p + 1) (2 ^ 32 - 1) : Occurrence } :=
  ((ofDocument_selects_links ⟨"p.md"⟩ "é[a[b](c(d)e)\r\n").2 _).mp (by decide)

end Occurrence
end Shorthand
