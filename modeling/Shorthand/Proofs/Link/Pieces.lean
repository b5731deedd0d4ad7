import Shorthand.Link.Occurrence
import Shorthand.Proofs.Link.Grammar
import Shorthand.Proofs.Text.Lines

/-!
The pieces of a line. They spell the line, and what follows a line without being able to close
a link, such as its line feed, adds no link to it.
-/

namespace Shorthand

theorem Link.written_eq_concat (l : Link) :
    l.written = ('[' :: (l.label ++ [']', '('] ++ l.target)) ++ [')'] := by
  simp [written]

namespace Piece

theorem ofLineFrom_eq_drop (skip : Nat) (s : Text) :
    ofLineFrom skip s = ofLineFrom 0 (s.drop skip) := by
  induction s generalizing skip with
  | nil => cases skip <;> simp [ofLineFrom]
  | cons c s ih =>
      cases skip with
      | zero => rfl
      | succ skip => exact ih skip

theorem ofLine_plain {c : Char} {rest : Text} (h : Link.atStart? (c :: rest) = none) :
    ofLine (c :: rest) = plain c :: ofLine rest := by
  simp only [ofLine, ofLineFrom, h]

theorem ofLine_link {l : Link} (h : l.IsLink) (rest : Text) :
    ofLine (l.written ++ rest) = link l :: ofLine rest := by
  have hstart := h.atStart?_written rest
  simp only [Link.written, List.cons_append] at hstart
  simp only [ofLine, Link.written, List.cons_append, ofLineFrom, hstart, List.length_cons,
    Nat.add_sub_cancel]
  rw [ofLineFrom_eq_drop, List.drop_left]

/-- A line is read from the left: a link is taken whole, and a character where no link starts
is passed over. -/
theorem line_induction {motive : Text → Prop} (nil : motive [])
    (link : ∀ (l : Link) (rest : Text), l.IsLink → motive rest → motive (l.written ++ rest))
    (plain : ∀ (c : Char) (rest : Text), Link.atStart? (c :: rest) = none → motive rest →
      motive (c :: rest)) (line : Text) : motive line := by
  induction hn : line.length using Nat.strongRecOn generalizing line with
  | _ n ih =>
      cases line with
      | nil => exact nil
      | cons c rest =>
          cases h : Link.atStart? (c :: rest) with
          | none => exact plain c rest h (ih rest.length (by simp [← hn]) rest rfl)
          | some l =>
              obtain ⟨hl, after, hs⟩ := Link.atStart?_eq_some_iff.mp h
              rw [hs]
              refine link l after hl (ih after.length ?_ after rfl)
              rw [← hn, hs, List.length_append]
              simp [Link.written]

theorem flatMap_written_ofLine (line : Text) : (ofLine line).flatMap written = line := by
  induction line using line_induction with
  | nil => rfl
  | link l rest hl ih => rw [ofLine_link hl, List.flatMap_cons, ih, written]
  | plain c rest h ih => rw [ofLine_plain h, List.flatMap_cons, ih, written, List.singleton_append]

/-- A link ends in a parenthesis, so white space after a line does not complete one. -/
theorem atStart?_append_blank {s tail : Text} (htail : ∀ c ∈ tail, Text.isBlank c = true)
    (h : Link.atStart? s = none) : Link.atStart? (s ++ tail) = none := by
  rw [Option.eq_none_iff_forall_ne_some] at h ⊢
  intro l hl
  obtain ⟨hlink, rest, hs⟩ := Link.atStart?_eq_some_iff.mp hl
  rcases List.append_eq_append_iff.mp hs with ⟨e, he, htail'⟩ | ⟨e, rfl, -⟩
  · rcases List.eq_nil_or_concat e with rfl | ⟨e, c, rfl⟩
    · exact h l (Link.atStart?_eq_some_iff.mpr ⟨hlink, [], by simpa using he.symm⟩)
    · rw [Link.written_eq_concat, List.concat_eq_append, ← List.append_assoc] at he
      cases List.append_inj_right' he rfl
      exact absurd (htail ')' (by rw [htail']; simp)) (by decide)
  · exact h l (hlink.atStart?_written e)

theorem ofLine_append_blank (line : Text) {tail : Text}
    (htail : ∀ c ∈ tail, Text.isBlank c = true) :
    ofLine (line ++ tail) = ofLine line ++ tail.map plain := by
  induction line using line_induction with
  | nil =>
      induction tail with
      | nil => rfl
      | cons c tail ih =>
          have hnone := atStart?_append_blank htail (s := []) rfl
          rw [List.nil_append, ofLine_plain hnone, List.map_cons]
          rw [List.nil_append] at ih
          rw [ih fun d hd => htail d (List.mem_cons_of_mem _ hd)]
          rfl
  | link l rest hl ih =>
      rw [List.append_assoc, ofLine_link hl, ofLine_link hl, ih, List.cons_append]
  | plain c rest h ih =>
      have hnone := atStart?_append_blank htail h
      rw [List.cons_append] at hnone ⊢
      rw [ofLine_plain hnone, ofLine_plain h, ih, List.cons_append]

theorem linksFrom_append_plain (offset : Nat) (pieces : List Piece) (tail : Text) :
    linksFrom offset (pieces ++ tail.map plain) = linksFrom offset pieces := by
  induction pieces generalizing offset with
  | nil =>
      induction tail generalizing offset with
      | nil => rfl
      | cons c tail ih => exact ih _
  | cons piece pieces ih => cases piece <;> simp only [List.cons_append, linksFrom, ih]

/-- The scanner drops the end of a line and the renderer keeps it: both see the same links. -/
theorem linksFrom_ofLine_chomp (offset : Nat) (line : Text) :
    linksFrom offset (ofLine line.chomp) = linksFrom offset (ofLine line) := by
  obtain ⟨tail, htail, hline⟩ := line.exists_chomp_append
  conv_rhs => rw [hline, ofLine_append_blank _ htail, linksFrom_append_plain]

/-- The links among pieces. -/
def links (pieces : List Piece) : List Link :=
  pieces.filterMap fun
    | link l => some l
    | plain _ => none

theorem links_ofLine_plain {a : Text} (h : '[' ∉ a) (s : Text) :
    links (ofLine (a ++ s)) = links (ofLine s) := by
  induction a with
  | nil => rfl
  | cons c a ih =>
      obtain ⟨hc, ha⟩ := not_or.mp (mt List.mem_cons.mpr h)
      have hnone : Link.atStart? (c :: (a ++ s)) = none := by simp [Link.atStart?, Ne.symm hc]
      rw [List.cons_append, ofLine_plain hnone]
      exact ih ha

theorem isLink_of_mem_links {line : Text} : ∀ l ∈ links (ofLine line), l.IsLink := by
  induction line using line_induction with
  | nil => nofun
  | link l rest hl ih =>
      rw [ofLine_link hl]
      exact List.forall_mem_cons.mpr ⟨hl, ih⟩
  | plain c rest h ih =>
      rw [ofLine_plain h]
      exact ih

theorem map_linksFrom (offset : Nat) (pieces : List Piece) :
    (linksFrom offset pieces).map (·.2) = links pieces := by
  induction pieces generalizing offset with
  | nil => rfl
  | cons piece pieces ih =>
      cases piece with
      | plain c => exact ih _
      | link l => exact congrArg (l :: ·) (ih _)

end Piece

namespace Occurrence

variable {source : Path} {content : Text}

theorem map_ofLine (source : Path) (number : Nat) (line : Text) :
    (ofLine source number line).map (fun o => (o.source, o.line, o.link)) =
      (Piece.links (Piece.ofLine line)).map fun l => (source, position number, l) := by
  rw [ofLine, Piece.linksFrom_ofLine_chomp, ← Piece.map_linksFrom 0, List.map_map, List.map_map]
  rfl

theorem isLink_of_mem {o : Occurrence} (h : o ∈ ofDocument source content) : o.link.IsLink := by
  obtain ⟨⟨line, number⟩, -, ho⟩ := List.mem_flatMap.mp h
  have hmem := List.mem_map_of_mem (f := fun o : Occurrence => (o.source, o.line, o.link)) ho
  rw [map_ofLine] at hmem
  obtain ⟨l, hl, heq⟩ := List.mem_map.mp hmem
  obtain rfl : l = o.link := congrArg (·.2.2) heq
  exact Piece.isLink_of_mem_links _ hl

end Occurrence
end Shorthand
