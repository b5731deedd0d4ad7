import Mathlib.Data.List.Forall2
import Shorthand.Proofs.Link.Readdressed
import Shorthand.Proofs.Link.Rendering

/-!
Reading a rendered document again. Rendering gives other targets to the links of a document, so that
it keeps them or not as its lines do.
-/

namespace Shorthand
namespace Resolver

variable {r : Resolver} {source : Path} {content : Text}

/-- The address that a link gets in a rendered page. -/
def address (r : Resolver) (source : Path) (l : Link) : Text :=
  (r.href? source l).getD l.target

theorem flatMap_renderPiece (r : Resolver) (source : Path) (line : Text) :
    (Piece.ofLine line).flatMap (r.renderPiece source) =
      Text.readdressed (r.address source) line := by
  rw [Text.readdressed, Piece.spelled, List.flatMap_map]
  refine List.flatMap_congr fun piece _ => ?_
  cases piece <;> rfl

theorem readdressed_feed (address : Link → Text) (body : Text) :
    Text.readdressed address (body ++ ['\n']) = Text.readdressed address body ++ ['\n'] := by
  rw [Text.readdressed, Piece.ofLine_append_blank body Text.isBlank_of_mem_feed,
    Piece.spelled_append, Piece.spelled_map_plain, ← Text.readdressed]

theorem lines_render (haddress : ∀ line ∈ content.lines, ∀ l, .link l ∈ Piece.ofLine line →
      Link.IsTarget (r.address source l)) :
    (r.render source content).lines = content.lines.map (Text.readdressed (r.address source)) := by
  induction content using Text.lines_induction with
  | nil => rfl
  | last body hne hbody =>
      rw [Text.lines_last hne hbody, List.forall_mem_singleton] at haddress
      obtain ⟨c, rest, rfl⟩ := List.exists_cons_of_ne_nil hne
      obtain ⟨rest', hrest'⟩ := Text.exists_readdressed_cons (r.address source) c rest
      have hfeed := Text.not_mem_readdressed hbody fun l hl =>
        (haddress l hl).not_mem_of_isBlank (by decide)
      rw [render_last r source hne hbody, flatMap_renderPiece, Text.lines_last hne hbody,
        List.map_singleton, Text.lines_last (by rw [hrest']; nofun) hfeed]
  | feed body rest hbody ih =>
      rw [Text.lines_feed hbody, List.forall_mem_cons] at haddress
      obtain ⟨hfirst, hmore⟩ := haddress
      have hfeed : '\n' ∉ Text.readdressed (r.address source) body := by
        refine Text.not_mem_readdressed hbody fun l hl =>
          (hfirst l ?_).not_mem_of_isBlank (by decide)
        rw [Piece.ofLine_append_blank body Text.isBlank_of_mem_feed]
        exact List.mem_append_left _ hl
      rw [render_feed r source hbody, flatMap_renderPiece, Text.lines_feed hfeed, ih hmore,
        Text.lines_feed hbody, List.map_cons, readdressed_feed]

end Resolver

namespace Occurrence

variable {r : Resolver} {source : Path} {content : Text}

theorem map_link_ofDocument (source : Path) (content : Text) :
    (ofDocument source content).map (·.link) =
      content.lines.flatMap fun line => Piece.links (Piece.ofLine line) := by
  have hline (number : Nat) (line : Text) :
      (ofLine source number line).map (·.link) = Piece.links (Piece.ofLine line) := by
    have htriples := congrArg (List.map (·.2.2)) (map_ofLine source number line)
    rw [List.map_map, List.map_map] at htriples
    exact htriples.trans (List.map_id _)
  conv_rhs => rw [← List.zipIdx_map_fst 0 content.lines, List.flatMap_map]
  rw [ofDocument, List.map_flatMap]
  exact List.flatMap_congr fun p _ => hline p.2 p.1

theorem isTarget_address
    (haddress : ∀ o ∈ ofDocument source content, Link.IsTarget (r.address source o.link)) :
    ∀ line ∈ content.lines, ∀ l, .link l ∈ Piece.ofLine line →
      Link.IsTarget (r.address source l) := by
  intro line hline l hl
  have hmem : l ∈ (ofDocument source content).map (·.link) := by
    rw [map_link_ofDocument]
    exact List.mem_flatMap.mpr ⟨line, hline, List.mem_filterMap.mpr ⟨.link l, hl, rfl⟩⟩
  obtain ⟨o, ho, rfl⟩ := List.mem_map.mp hmem
  exact haddress o ho

theorem map_ofDocument_render
    (haddress : ∀ line ∈ content.lines, ∀ l, .link l ∈ Piece.ofLine line →
      Link.IsTarget (r.address source l))
    (hkeeps : ∀ line ∈ content.lines, Piece.KeepsParens (r.address source) line) :
    (ofDocument source (r.render source content)).map (fun o => (o.source, o.line, o.link)) =
      (ofDocument source content).map fun o =>
        (o.source, o.line, o.link.readdressed (r.address source)) := by
  rw [ofDocument, ofDocument, Resolver.lines_render haddress, List.zipIdx_map, List.flatMap_map,
    List.map_flatMap, List.map_flatMap]
  refine List.flatMap_congr fun ⟨line, number⟩ hmem => ?_
  have hline : line ∈ content.lines := (List.mem_zipIdx' hmem).2 ▸ List.getElem_mem _
  have hlinks := Piece.links_ofLine_readdressed (haddress line hline) (hkeeps line hline)
  have hrest := congrArg (List.map fun p : Path × Nat × Link =>
    (p.1, p.2.1, p.2.2.readdressed (r.address source))) (map_ofLine source number line)
  rw [List.map_map, List.map_map] at hrest
  simp only [Prod.map, id_eq, map_ofLine, hlinks, List.map_map]
  exact hrest.symm

theorem keepsParens_of_render
    (haddress : ∀ line ∈ content.lines, ∀ l, .link l ∈ Piece.ofLine line →
      Link.IsTarget (r.address source l))
    (hlinks : (ofDocument source content).map (fun o => o.link.readdressed (r.address source)) =
      (ofDocument source (r.render source content)).map (·.link)) :
    ∀ line ∈ content.lines, Piece.KeepsParens (r.address source) line := by
  refine Piece.keepsParens_of_lines haddress ?_
  rw [map_link_ofDocument, Resolver.lines_render haddress, List.flatMap_map] at hlinks
  rw [← map_link_ofDocument source, List.map_map]
  exact hlinks.symm

/-- A document keeps its links when it is rendered, in their order, on their lines, with their
labels and with the addresses as targets, if and only if each address is a target that the grammar
of links allows, and each link around which another would begin but for its parentheses keeps
them. -/
theorem rendering_keeps_links (r : Resolver) (source : Path) (content : Text) :
    List.Forall₂
        (fun o o' => o'.source = o.source ∧ o'.line = o.line ∧ o'.link.label = o.link.label ∧
          o'.link.target = r.address source o.link)
        (ofDocument source content) (ofDocument source (r.render source content)) ↔
      (∀ o ∈ ofDocument source content, Link.IsTarget (r.address source o.link)) ∧
        ∀ line ∈ content.lines, Piece.KeepsParens (r.address source) line := by
  constructor
  · intro hkept
    have haddress : ∀ o ∈ ofDocument source content, Link.IsTarget (r.address source o.link) := by
      intro o ho
      obtain ⟨n, hn, rfl⟩ := List.getElem_of_mem ho
      have hn' := hkept.length_eq ▸ hn
      obtain ⟨-, -, -, htarget⟩ := hkept.get hn hn'
      rw [List.get_eq_getElem, List.get_eq_getElem] at htarget
      rw [← htarget]
      exact (isLink_of_mem (List.getElem_mem hn')).isTarget
    refine ⟨haddress, keepsParens_of_render (isTarget_address haddress) ?_⟩
    rw [← List.forall₂_eq_eq_eq, List.forall₂_map_left_iff, List.forall₂_map_right_iff]
    exact hkept.imp fun o o' ⟨_, _, hlabel, htarget⟩ => (congrArg₂ Link.mk hlabel htarget).symm
  · rintro ⟨haddress, hkeeps⟩
    have hmap := (map_ofDocument_render (isTarget_address haddress) hkeeps).symm
    rw [← List.forall₂_eq_eq_eq, List.forall₂_map_left_iff, List.forall₂_map_right_iff] at hmap
    refine hmap.imp fun o o' h => ?_
    simp only [Prod.mk.injEq] at h
    obtain ⟨hsource, hline, hlink⟩ := h
    rw [← hlink]
    exact ⟨hsource.symm, hline.symm, rfl, rfl⟩

/-- White space in an address ends its link, and a link that loses its parentheses completes one
that was begun before it. -/
theorem address_breaks_links :
    let r : Resolver := ⟨.default, {}, .ofFolders [⟨"/ws"⟩]⟩
    let source : Path := ⟨"/ws/a.md"⟩
    let labels (content : Text) : List (Nat × Text) :=
      (ofDocument source content).map fun o => (o.line, o.link.label)
    labels (r.render source "[a b]([])\n") ≠ labels "[a b]([])\n" ∧
      labels (r.render source "[a](foo[b]((x)))\n") ≠ labels "[a](foo[b]((x)))\n" := by
  decide +kernel

end Occurrence
end Shorthand
