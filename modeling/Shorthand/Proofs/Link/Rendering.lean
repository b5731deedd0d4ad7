import Shorthand.Link.Render
import Shorthand.Proofs.Link.Pieces
import Shorthand.Proofs.Resolve.Location
import Shorthand.Proofs.Text

/-!
Rendering touches nothing but the targets of links. The links are those that scanning finds,
each at its own place.
-/

namespace Shorthand

/-- The occurrence of a link that stands after `before` in its document. -/
def Occurrence.after (source : Path) (before : Text) (l : Link) : Occurrence where
  link := l
  source := source
  line := position (before.count '\n')
  column := position (before.afterLast '\n').byteLength

namespace Resolver

/-- The address of an occurrence: its URL, or what a workspace shows of it with a `/` in front. -/
def IsHref (r : Resolver) (o : Occurrence) (href : Text) : Prop :=
  r.resolve (o.request .fromWorkspace) = .external href ∨
    ∃ shown, r.resolve (o.request .fromWorkspace) = .display shown ∧ href = siteRooted shown

/-- What follows `before` in a document is rendered, with the occurrences of the links in it. -/
inductive Rendered (r : Resolver) (source : Path) :
    (before content rendered : Text) → List Occurrence → Prop
  | rest (before s : Text) : Rendered r source before s s []
  | link {before : Text} (gap : Text) {s out href : Text} {l : Link} {found : List Occurrence} :
      r.IsHref (.after source (before ++ gap) l) href →
      Rendered r source (before ++ gap ++ l.written) s out found →
      Rendered r source before (gap ++ (l.written ++ s))
        (gap ++ (Link.written { l with target := href } ++ out))
        (.after source (before ++ gap) l :: found)

theorem Rendered.after_gap {r : Resolver} {source : Path} {before gap s out : Text}
    {found : List Occurrence} (h : r.Rendered source (before ++ gap) s out found) :
    r.Rendered source before (gap ++ s) (gap ++ out) found := by
  cases h with
  | rest => exact .rest before (gap ++ s)
  | link gap' hhref hmore =>
      rw [← List.append_assoc gap, ← List.append_assoc gap, List.append_assoc before]
      rw [List.append_assoc before] at hhref hmore
      exact .link _ hhref hmore

theorem isHref_href? (r : Resolver) (source : Path) (before : Text) (l : Link) :
    r.IsHref (.after source before l) ((r.href? source l).getD l.target) := by
  rcases r.resolve_eq_external_or_present l.target l.label source with ⟨url, h⟩ | h
  · refine .inl ?_
    simp only [href?, h]
    exact h _
  · obtain ⟨shown, hshown⟩ : ∃ shown, r.workspaces.present .fromWorkspace source
        (r.location l.target l.label source) = .display shown := ⟨_, rfl⟩
    refine .inr ⟨shown, (h _).trans hshown, ?_⟩
    simp only [href?, h, hshown, Option.getD_some]

/-- Links within a line count no line feed, and their columns grow by what stands before them. -/
theorem Rendered.pieces {r : Resolver} {source : Path} {s out : Text} {found : List Occurrence}
    (before : Text) (pieces : List Piece) (hline : '\n' ∉ pieces.flatMap Piece.written)
    (h : r.Rendered source (before ++ pieces.flatMap Piece.written) s out found) :
    r.Rendered source before (pieces.flatMap Piece.written ++ s)
      (pieces.flatMap (r.renderPiece source) ++ out)
      ((Piece.linksFrom (before.afterLast '\n').byteLength pieces).map (fun (offset, l) =>
        { link := l, source, line := position (before.count '\n'), column := position offset }) ++
        found) := by
  induction pieces generalizing before with
  | nil => simpa [Piece.linksFrom] using h
  | cons piece pieces ih =>
      rw [List.flatMap_cons, List.mem_append, not_or] at hline
      rw [List.flatMap_cons, ← List.append_assoc] at h
      have hrest := ih _ hline.2 h
      rw [Text.afterLast_append hline.1, Text.byteLength_append, List.count_append,
        List.count_eq_zero.mpr hline.1, Nat.add_zero] at hrest
      rw [List.flatMap_cons, List.flatMap_cons, List.append_assoc, List.append_assoc]
      -- A plain character joins the gap before the next link.
      cases piece with
      | plain c => exact hrest.after_gap
      | link l =>
          have hlink := Rendered.link [] (r.isHref_href? source (before ++ []) l)
            (by simpa [Piece.written] using hrest)
          simpa [Occurrence.after, Piece.linksFrom, Piece.written, renderPiece] using hlink

theorem Rendered.line {r : Resolver} {source : Path} {before body s out : Text}
    {found : List Occurrence} (h : r.Rendered source (before ++ body) s out found)
    (hstart : before.afterLast '\n' = []) (hbody : '\n' ∉ body) :
    r.Rendered source before (body ++ s)
      ((Piece.ofLine body).flatMap (r.renderPiece source) ++ out)
      (Occurrence.ofLine source (before.count '\n') body ++ found) := by
  have hwritten := Piece.flatMap_written_ofLine body
  have hpieces := Rendered.pieces before (Piece.ofLine body) (by rwa [hwritten])
    (by rwa [hwritten])
  rw [hwritten, hstart] at hpieces
  rw [Occurrence.ofLine, Piece.linksFrom_ofLine_chomp]
  exact hpieces

theorem render_last (r : Resolver) (source : Path) {body : Text} (hne : body ≠ [])
    (h : '\n' ∉ body) :
    r.render source body = (Piece.ofLine body).flatMap (r.renderPiece source) := by
  rw [render, Text.lines_last hne h, List.flatMap_singleton]

theorem render_feed (r : Resolver) (source : Path) {body : Text} (h : '\n' ∉ body)
    (rest : Text) :
    r.render source (body ++ '\n' :: rest) =
      (Piece.ofLine body).flatMap (r.renderPiece source) ++ '\n' :: r.render source rest := by
  rw [render, Text.lines_feed h, List.flatMap_cons,
    Piece.ofLine_append_blank body Text.isBlank_of_mem_feed, List.flatMap_append,
    List.append_assoc]
  rfl

theorem ofLine_feed (source : Path) (number : Nat) (body : Text) :
    Occurrence.ofLine source number (body ++ ['\n']) = Occurrence.ofLine source number body := by
  rw [Occurrence.ofLine, Occurrence.ofLine, Piece.linksFrom_ofLine_chomp,
    Piece.linksFrom_ofLine_chomp, Piece.ofLine_append_blank body Text.isBlank_of_mem_feed,
    Piece.linksFrom_append_plain]

/-- Line after line, the number of a line is the number of line feeds before it. -/
theorem rendered_from (r : Resolver) (source : Path) (content before : Text)
    (hstart : before.afterLast '\n' = []) :
    r.Rendered source before content (r.render source content)
      ((content.lines.zipIdx (before.count '\n')).flatMap fun (line, number) =>
        Occurrence.ofLine source number line) := by
  induction content using Text.lines_induction generalizing before with
  | nil => exact .rest before []
  | last body hne hbody =>
      have hrest : r.Rendered source (before ++ body) [] [] [] := .rest _ _
      have hline := hrest.line hstart hbody
      rw [List.append_nil, List.append_nil, List.append_nil] at hline
      rw [render_last r source hne hbody, Text.lines_last hne hbody, List.zipIdx_singleton,
        List.flatMap_singleton]
      exact hline
  | feed body rest hbody ih =>
      have hrest := ih (before ++ body ++ ['\n']) (Text.afterLast_concat _ _)
      rw [List.count_append, List.count_append, List.count_eq_zero.mpr hbody,
        List.count_singleton_self] at hrest
      have hline := Rendered.line hrest.after_gap hstart hbody
      rw [← ofLine_feed] at hline
      rw [render_feed r source hbody, Text.lines_feed hbody, List.zipIdx_cons, List.flatMap_cons]
      exact hline

/-- Rendering replaces the target of each link that scanning finds by its address, and nothing
else of the document. -/
theorem rendered_ofDocument (r : Resolver) (source : Path) (content : Text) :
    r.Rendered source [] content (r.render source content)
      (Occurrence.ofDocument source content) :=
  r.rendered_from source content [] rfl

end Resolver
end Shorthand
