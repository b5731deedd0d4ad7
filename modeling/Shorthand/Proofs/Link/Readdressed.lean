import Shorthand.Proofs.Link.Passing
import Shorthand.Proofs.Link.Pieces

/-!
Lines whose links are given other targets, each written as it is. If these are targets of the
grammar, the line keeps its links but for one case: a link that loses its parentheses can complete
another that was begun before it.
-/

namespace Shorthand
namespace Link

variable {i : Bool} {a t : Text} {l : Link}

/-- The link with another target. -/
def readdressed (address : Link → Text) (l : Link) : Link :=
  { l with target := address l }

theorem IsLink.readdressed {address : Link → Text} (h : l.IsLink) (ht : IsTarget (address l)) :
    (l.readdressed address).IsLink :=
  ⟨h.label_ne_nil, h.not_mem_label, ht⟩

/-- A target goes on with a text and is closed in it. -/
def Closes (s : Text) : Prop :=
  ∃ t rest, s = t ++ ')' :: rest ∧ IsTarget t

theorem target?_eq_none_iff {s : Text} : target? false s = none ↔ ¬ Closes s := by
  rw [Option.eq_none_iff_forall_ne_some, Closes]
  constructor
  · rintro h ⟨t, rest, rfl, ht⟩
    exact h t (target?_append ht rest)
  · rintro h t ht
    obtain ⟨htarget, rest, rfl⟩ := isTarget_of_target? ht
    exact h ⟨t, rest, rfl, htarget⟩

/-- Where no target is read over a link, none is read with its other target either, unless that has
no parentheses and the link stands in none: then the recognizer goes on after the link. -/
theorem target?_written_readdressed {address : Link → Text} {s : Text} (ht : IsTarget (address l))
    (hnone : target? i (l.written ++ s) = none) :
    (∀ s', target? i ((l.readdressed address).written ++ s') = none) ∨
      Passes i l.head false ∧ '(' ∉ address l ∧ Passes i (l.readdressed address).written false := by
  rcases passes_or_settles i l.head with ⟨j, hj⟩ | hsettles
  · have hj' : Passes i (l.readdressed address).head j := hj
    by_cases hcloses : j = true ∨ '(' ∈ address l
    · exact .inl (hj'.target?_written ht hcloses)
    · obtain ⟨hout, hplain⟩ := not_or.mp hcloses
      obtain rfl : j = false := by simpa using hout
      exact .inr ⟨hj, hplain, hj'.written ht hplain⟩
  · have hhead : (l.readdressed address).head = l.head := rfl
    exact .inl fun s' => (hsettles.written hhead s s').trans hnone

/-- A target that is read over a link only with its other target reaches beyond the link. -/
theorem length_lt_of_target? {address : Link → Text} {s s' : Text} (ht : IsTarget (address l))
    (hnone : target? i (a ++ (l.written ++ s)) = none)
    (hsome : target? i (a ++ ((l.readdressed address).written ++ s')) = some t) :
    (address l).length < t.length := by
  rcases passes_or_settles i a with ⟨j, ha⟩ | ha
  · rw [ha.eq_none_iff] at hnone
    rw [ha, Option.map_eq_some_iff] at hsome
    obtain ⟨u, hu, rfl⟩ := hsome
    rcases target?_written_readdressed ht hnone with hnone' | ⟨-, -, hpasses⟩
    · cases (hnone' s').symm.trans hu
    · rw [hpasses, Option.map_eq_some_iff] at hu
      obtain ⟨v, -, rfl⟩ := hu
      simp [written, Link.readdressed]
      omega
  · cases ((ha _ _).trans hnone).symm.trans hsome

end Link

namespace Piece

variable {address : Link → Text} {line label after rest : Text}

def readdressed (address : Link → Text) : Piece → Piece
  | plain c => plain c
  | link l => link (l.readdressed address)

/-- The text of pieces with other targets in their links. -/
def spelled (address : Link → Text) (pieces : List Piece) : Text :=
  (pieces.map (readdressed address)).flatMap written

@[simp] theorem spelled_nil (address : Link → Text) : spelled address [] = [] := rfl

@[simp] theorem spelled_plain (address : Link → Text) (c : Char) (pieces : List Piece) :
    spelled address (plain c :: pieces) = c :: spelled address pieces := rfl

@[simp] theorem spelled_link (address : Link → Text) (l : Link) (pieces : List Piece) :
    spelled address (link l :: pieces) =
      (l.readdressed address).written ++ spelled address pieces := rfl

@[simp] theorem spelled_append (address : Link → Text) (before after : List Piece) :
    spelled address (before ++ after) = spelled address before ++ spelled address after := by
  rw [spelled, List.map_append, List.flatMap_append]
  rfl

@[simp] theorem spelled_map_plain (address : Link → Text) (s : Text) :
    spelled address (s.map plain) = s := by
  rw [spelled, List.map_map, List.flatMap_map]
  exact List.flatMap_singleton' s

/-- With the other targets, a bracket before `between` would begin a link around another one:
`between` ends a label and opens a target, from there up to the end of the other's label the line
reads as a target, and after the other link it goes on as one and is closed. -/
def BeginsAround (address : Link → Text) (between : List Piece) (l : Link) (after : List Piece) :
    Prop :=
  ∃ label opened, spelled address between = label ++ ']' :: '(' :: opened ∧ label ≠ [] ∧
    ']' ∉ label ∧ Link.IsTarget (opened ++ l.head) ∧ Link.Closes (spelled address after)

/-- A bracket outside all links would begin a link around a later one. -/
def Encloses (address : Link → Text) (before : List Piece) (l : Link) (after : List Piece) : Prop :=
  ∃ a between, before = a ++ plain '[' :: between ∧ BeginsAround address between l after

/-- A link around which another would begin but for its parentheses keeps them. -/
def KeepsParens (address : Link → Text) (line : Text) : Prop :=
  ∀ before l after, ofLine line = before ++ link l :: after → Encloses address before l after →
    '(' ∈ l.target → '(' ∈ address l

theorem KeepsParens.of_append {front : List Piece} (h : KeepsParens address line)
    (hline : ofLine line = front ++ ofLine rest) : KeepsParens address rest := by
  rintro before l after hrest ⟨a, between, rfl, hbegins⟩
  refine h (front ++ (a ++ plain '[' :: between)) l after ?_ ⟨front ++ a, between, ?_, hbegins⟩
  · rw [hline, hrest, List.append_assoc front]
  · rw [List.append_assoc]

/-- A piece in front of a line can begin a link around those of the line if it is a bracket. -/
theorem KeepsParens.cons {piece : Piece} (h : KeepsParens address rest)
    (hline : ofLine line = piece :: ofLine rest)
    (hbracket : piece = plain '[' → ∀ before l after, ofLine rest = before ++ link l :: after →
      BeginsAround address before l after → '(' ∈ l.target → '(' ∈ address l) :
    KeepsParens address line := by
  rintro before l after hpieces ⟨a, between, rfl, hbegins⟩
  rw [hline] at hpieces
  cases a with
  | nil =>
      obtain ⟨hpiece, hrest⟩ := List.cons.inj hpieces
      exact hbracket hpiece between l after hrest hbegins
  | cons p a =>
      obtain ⟨-, hrest⟩ := List.cons.inj hpieces
      exact h _ l after hrest ⟨a, between, rfl, hbegins⟩

/-- No link starts where the bracket after the label opens no target. -/
theorem atStart?_no_target (c : Char) (hlabel : ']' ∉ label)
    (hafter : ∀ s, after = '(' :: s → Link.target? false s = none) :
    Link.atStart? (c :: (label ++ ']' :: after)) = none := by
  by_cases hc : c = '['
  · subst hc
    rw [Link.atStart?_label hlabel]
    split
    · rfl
    · split
      · rw [hafter _ rfl, Option.map_none]
      · rfl
  · simp [Link.atStart?, hc]

theorem ofLine_no_target (hlabel : ']' ∉ label)
    (hafter : ∀ s, after = '(' :: s → Link.target? false s = none) :
    ofLine (label ++ ']' :: after) = (label ++ [']']).map plain ++ ofLine after := by
  induction label with
  | nil => exact ofLine_plain (by simp [Link.atStart?])
  | cons c label ih =>
      have hrest : ']' ∉ label := mt (List.mem_cons_of_mem _) hlabel
      rw [List.cons_append, ofLine_plain (atStart?_no_target c hrest hafter), ih hrest]
      rfl

theorem ofLine_no_label (h : ']' ∉ rest) : ofLine rest = rest.map plain := by
  induction rest with
  | nil => rfl
  | cons c rest ih =>
      have hrest : ']' ∉ rest := mt (List.mem_cons_of_mem _) h
      rw [ofLine_plain (Link.atStart?_no_label hrest c), ih hrest]
      rfl

end Piece

/-- A line with other targets in its links. -/
def Text.readdressed (address : Link → Text) (line : Text) : Text :=
  Piece.spelled address (Piece.ofLine line)

namespace Text

variable {address : Link → Text} {i : Bool} {c : Char} {line rest between : Text} {l : Link}

theorem readdressed_plain (h : Link.atStart? (c :: rest) = none) :
    readdressed address (c :: rest) = c :: readdressed address rest := by
  rw [readdressed, Piece.ofLine_plain h]
  rfl

theorem readdressed_link (h : l.IsLink) (rest : Text) :
    readdressed address (l.written ++ rest) =
      (l.readdressed address).written ++ readdressed address rest := by
  rw [readdressed, Piece.ofLine_link h]
  rfl

theorem exists_readdressed_cons (address : Link → Text) (c : Char) (rest : Text) :
    ∃ rest', readdressed address (c :: rest) = c :: rest' := by
  cases h : Link.atStart? (c :: rest) with
  | none => exact ⟨_, readdressed_plain h⟩
  | some l =>
      obtain ⟨hl, after, hs⟩ := Link.atStart?_eq_some_iff.mp h
      obtain ⟨rfl, -⟩ := List.cons.inj hs
      rw [hs, readdressed_link hl]
      exact ⟨_, rfl⟩

theorem not_mem_readdressed (hc : c ∉ line)
    (haddress : ∀ l, .link l ∈ Piece.ofLine line → c ∉ address l) :
    c ∉ readdressed address line := by
  intro hmem
  obtain ⟨piece', hpiece', hmem⟩ := List.mem_flatMap.mp hmem
  obtain ⟨piece, hpiece, rfl⟩ := List.mem_map.mp hpiece'
  have hwritten : c ∉ piece.written := fun h =>
    hc (Piece.flatMap_written_ofLine line ▸ List.mem_flatMap.mpr ⟨piece, hpiece, h⟩)
  cases piece with
  | plain d => exact hwritten hmem
  | link l =>
      have htarget := haddress l hpiece
      simp [Piece.readdressed, Piece.written, Link.readdressed, Link.written] at hmem hwritten
      tauto

/-- A target that was not closed stays so when the links after its opening get other targets. The
induction is on the pieces of the rest of the line, and `between` is what has been read of the line
with the other targets since the opening. -/
theorem target?_readdressed
    (haddress : ∀ l, .link l ∈ Piece.ofLine rest → Link.IsTarget (address l))
    (hbetween : Link.Passes false between i)
    (hkeeps : ∀ before l after, Piece.ofLine rest = before ++ .link l :: after →
      Link.IsTarget (between ++ (Piece.spelled address before ++ l.head)) →
      Link.Closes (Piece.spelled address after) → '(' ∈ l.target → '(' ∈ address l)
    (hnone : Link.target? i rest = none) : Link.target? i (readdressed address rest) = none := by
  induction rest using Piece.line_induction generalizing between i with
  | nil => exact hnone
  | plain c rest h ih =>
      rw [Piece.ofLine_plain h] at haddress hkeeps
      rw [readdressed_plain h]
      rcases Link.passes_or_settles_char i c with ⟨j, hj⟩ | hsettles
      · refine (hj.eq_none_iff _).mpr (ih (fun l hl => haddress l (List.mem_cons_of_mem _ hl))
          (hbetween.append hj) (fun before l after hrest htarget => ?_)
          ((hj.eq_none_iff rest).mp hnone))
        refine hkeeps (.plain c :: before) l after (by rw [hrest]; rfl) ?_
        simpa using htarget
      · exact (hsettles _ rest).trans hnone
  | link l rest hl ih =>
      rw [Piece.ofLine_link hl] at haddress hkeeps
      rw [readdressed_link hl]
      have hladdress := haddress l List.mem_cons_self
      rcases Link.target?_written_readdressed hladdress hnone with hnone' | ⟨hj, hplain, hpasses⟩
      · exact hnone' _
      · rw [hpasses.eq_none_iff]
        by_cases hltarget : '(' ∈ l.target
        -- The link loses its parentheses, so what follows must not close the target.
        · have htarget := Link.isTarget_iff_passes.mpr (hbetween.append hj)
          exact Link.target?_eq_none_iff.mpr fun hcloses =>
            hplain (hkeeps [] l _ rfl htarget hcloses hltarget)
        · refine ih (fun l hl => haddress l (List.mem_cons_of_mem _ hl)) (hbetween.append hpasses)
            (fun before l' after hrest htarget => ?_)
            (((hj.written hl.isTarget hltarget).eq_none_iff rest).mp hnone)
          refine hkeeps (.link l :: before) l' after (by rw [hrest]; rfl) ?_
          simpa using htarget

/-- Where a link starts with the other targets only, a target was opened that was not closed. -/
theorem exists_opening (h : Link.atStart? (c :: rest) = none)
    (hl : Link.atStart? (c :: readdressed address rest) = some l) :
    c = '[' ∧ ∃ s, Piece.ofLine rest = (l.label ++ [']', '(']).map .plain ++ Piece.ofLine s ∧
      Link.target? false s = none ∧ Link.target? false (readdressed address s) = some l.target := by
  have hc : c = '[' := by
    by_contra hc
    simp [Link.atStart?, hc] at hl
  subst hc
  by_cases hclose : ']' ∈ rest
  · obtain ⟨label, after, rfl, hlabel⟩ := List.eq_append_cons_of_mem hclose
    have hnil : label ≠ [] := by
      rintro rfl
      rw [List.nil_append, readdressed_plain (by simp [Link.atStart?])] at hl
      cases (Link.atStart?_label hlabel _).symm.trans hl
    have hafter : ∀ s, after = '(' :: s → Link.target? false s = none := by
      rintro s rfl
      simpa [Link.atStart?_label hlabel, hnil] using h
    have hpieces := Piece.ofLine_no_target hlabel hafter
    have hread : readdressed address (label ++ ']' :: after) =
        label ++ ']' :: readdressed address after := by
      rw [readdressed, hpieces, Piece.spelled_append, Piece.spelled_map_plain, List.append_assoc]
      rfl
    rw [hread, Link.atStart?_label hlabel, if_neg hnil] at hl
    split at hl
    · rename_i s' hs'
      obtain ⟨t, ht, rfl⟩ := Option.map_eq_some_iff.mp hl
      cases after with
      | nil => contradiction
      | cons d s =>
          obtain ⟨rest', hrest'⟩ := exists_readdressed_cons address d s
          obtain ⟨rfl, -⟩ := List.cons.inj (hrest'.symm.trans hs')
          have hplain : Link.atStart? ('(' :: s) = none := by simp [Link.atStart?]
          rw [readdressed_plain hplain] at hs'
          cases hs'
          refine ⟨rfl, s, ?_, hafter s rfl, ht⟩
          rw [hpieces, Piece.ofLine_plain hplain]
          simp
    · contradiction
  · rw [readdressed, Piece.ofLine_no_label hclose, Piece.spelled_map_plain, h] at hl
    contradiction

/-- Where no link starts, none starts with the other targets. -/
theorem atStart?_readdressed (h : Link.atStart? (c :: rest) = none)
    (haddress : ∀ l, .link l ∈ Piece.ofLine rest → Link.IsTarget (address l))
    (hkeeps : Piece.KeepsParens address (c :: rest)) :
    Link.atStart? (c :: readdressed address rest) = none := by
  rw [Option.eq_none_iff_forall_ne_some]
  intro l hl
  obtain ⟨rfl, s, hpieces, hnone, hsome⟩ := exists_opening h hl
  obtain ⟨hlink, -⟩ := Link.isLink_of_atStart? hl
  have hclosed : Link.target? false (readdressed address s) = none := by
    refine target?_readdressed (fun l hl => haddress l ?_) (.nil false)
      (fun before l' after hs htarget hcloses => ?_) hnone
    · rw [hpieces]
      exact List.mem_append_right _ hl
    · refine hkeeps (.plain '[' :: ((l.label ++ [']', '(']).map .plain ++ before)) l' after ?_
        ⟨[], _, rfl, l.label, Piece.spelled address before, ?_, hlink.label_ne_nil,
          hlink.not_mem_label, htarget, hcloses⟩
      · rw [Piece.ofLine_plain h, hpieces, hs, List.cons_append, List.append_assoc]
      · rw [Piece.spelled_append, Piece.spelled_map_plain, List.append_assoc]
        rfl
  cases hclosed.symm.trans hsome

/-- A line without links stays, and otherwise it has a first link. -/
theorem exists_first_link (address : Link → Text) (line : Text) :
    readdressed address line = line ∨
      ∃ gap l rest, line = gap ++ (l.written ++ rest) ∧
        readdressed address line =
          gap ++ ((l.readdressed address).written ++ readdressed address rest) ∧
        .link l ∈ Piece.ofLine line ∧
        Piece.links (Piece.ofLine line) = l :: Piece.links (Piece.ofLine rest) := by
  induction line using Piece.line_induction with
  | nil => exact .inl rfl
  | link l rest hl _ =>
      exact .inr ⟨[], l, rest, rfl, readdressed_link hl rest, by simp [Piece.ofLine_link hl],
        congrArg Piece.links (Piece.ofLine_link hl rest)⟩
  | plain c line h ih =>
      rw [readdressed_plain h, Piece.ofLine_plain h]
      rcases ih with hline | ⟨gap, l, rest, hline, hread, hmem, hlinks⟩
      · exact .inl (congrArg (c :: ·) hline)
      · exact .inr ⟨c :: gap, l, rest, congrArg (c :: ·) hline, congrArg (c :: ·) hread,
          List.mem_cons_of_mem _ hmem, hlinks⟩

end Text

namespace Piece

variable {address : Link → Text} {c : Char} {line rest : Text} {x y : List Link}

theorem links_map_plain_append (s : Text) (pieces : List Piece) :
    links (s.map plain ++ pieces) = links pieces := by
  induction s with
  | nil => rfl
  | cons c s ih => exact ih

/-- A line keeps its links with other targets that leave the parentheses where they matter. -/
theorem links_ofLine_readdressed (haddress : ∀ l, link l ∈ ofLine line → Link.IsTarget (address l))
    (hkeeps : KeepsParens address line) :
    links (ofLine (Text.readdressed address line)) =
      (links (ofLine line)).map (Link.readdressed address) := by
  induction line using line_induction with
  | nil => rfl
  | link l rest hl ih =>
      have hpieces : ofLine (l.written ++ rest) = [link l] ++ ofLine rest := ofLine_link hl rest
      have hladdress := haddress l (by simp [hpieces])
      have hrest := ih (fun l hl => haddress l (by simp [hpieces, hl])) (hkeeps.of_append hpieces)
      rw [Text.readdressed_link hl, ofLine_link (hl.readdressed hladdress), hpieces]
      exact congrArg (l.readdressed address :: ·) hrest
  | plain c rest h ih =>
      have hpieces : ofLine (c :: rest) = [plain c] ++ ofLine rest := ofLine_plain h
      have hrest : ∀ l, link l ∈ ofLine rest → Link.IsTarget (address l) :=
        fun l hl => haddress l (by simp [hpieces, hl])
      have hnone := Text.atStart?_readdressed h hrest hkeeps
      rw [Text.readdressed_plain h, ofLine_plain hnone, hpieces]
      exact ih hrest (hkeeps.of_append hpieces)

/-- A link that starts only with the other targets is none of those that the line should have: its
target holds one of them. -/
theorem atStart?_readdressed_of_links (h : Link.atStart? (c :: rest) = none)
    (haddress : ∀ l, link l ∈ ofLine rest → Link.IsTarget (address l))
    (hlinks : links (ofLine (c :: Text.readdressed address rest)) ++ x =
      (links (ofLine rest)).map (Link.readdressed address) ++ y) :
    Link.atStart? (c :: Text.readdressed address rest) = none := by
  rw [Option.eq_none_iff_forall_ne_some]
  intro l hl
  obtain ⟨-, s, hpieces, hnone, hsome⟩ := Text.exists_opening h hl
  rcases Text.exists_first_link address s with hs | ⟨gap, l', rest', rfl, hread, hmem, hfirst⟩
  · rw [hs, hnone] at hsome
    contradiction
  · have hl' : l = l'.readdressed address := by
      obtain ⟨hlink, after, hafter⟩ := Link.isLink_of_atStart? hl
      rw [hafter, ofLine_link hlink, hpieces, links_map_plain_append, hfirst] at hlinks
      exact (List.cons.inj hlinks).1
    have hladdress := haddress l' (by rw [hpieces]; exact List.mem_append_right _ hmem)
    rw [hread] at hsome
    have hlength := Link.length_lt_of_target? hladdress hnone hsome
    rw [hl'] at hlength
    exact absurd hlength (lt_irrefl _)

/-- Only so a line keeps its links. Other links may follow on both sides. -/
theorem keepsParens_of_links (haddress : ∀ l, link l ∈ ofLine line → Link.IsTarget (address l))
    (hlinks : links (ofLine (Text.readdressed address line)) ++ x =
      (links (ofLine line)).map (Link.readdressed address) ++ y) : KeepsParens address line := by
  induction line using line_induction with
  | nil => exact fun before l after hline => by simp [ofLine, ofLineFrom] at hline
  | link l rest hl ih =>
      have hpieces : ofLine (l.written ++ rest) = link l :: ofLine rest := ofLine_link hl rest
      have hladdress := haddress l (by simp [hpieces])
      rw [Text.readdressed_link hl, ofLine_link (hl.readdressed hladdress), hpieces] at hlinks
      have hrest := ih (fun l hl => haddress l (by simp [hpieces, hl])) (List.cons.inj hlinks).2
      refine hrest.cons hpieces fun hbracket => ?_
      contradiction
  | plain c rest h ih =>
      have hpieces : ofLine (c :: rest) = plain c :: ofLine rest := ofLine_plain h
      have hmem : ∀ l, link l ∈ ofLine rest → Link.IsTarget (address l) :=
        fun l hl => haddress l (by simp [hpieces, hl])
      rw [Text.readdressed_plain h, hpieces] at hlinks
      have hnone := atStart?_readdressed_of_links h hmem hlinks
      rw [ofLine_plain hnone] at hlinks
      refine (ih hmem hlinks).cons hpieces fun hc before l after hrest hbegins _ => ?_
      obtain ⟨label, opened, hspelled, hne, hlabel, htarget, hcloses⟩ := hbegins
      cases hc
      by_contra hparen
      have hgroup := (hmem l (by simp [hrest])).passes_group hparen
      have hpasses := (Link.isTarget_iff_passes.mp htarget).append hgroup
      have hread : Text.readdressed address rest = label ++ ']' :: '(' ::
          (opened ++ l.head ++ (['('] ++ (address l ++ [')'])) ++ spelled address after) := by
        simp [Text.readdressed, hrest, hspelled, Link.written_eq_head, Link.readdressed, Link.head]
      rw [hread, Link.atStart?_label hlabel, if_neg hne] at hnone
      refine Link.target?_eq_none_iff.mp ?_ hcloses
      exact (hpasses.eq_none_iff _).mp (Option.map_eq_none_iff.mp hnone)

/-- Where all links of a number of lines are there in their order with the other targets, each line
keeps its own: the first that did not would have one that the lines should not have. -/
theorem keepsParens_of_lines {lines : List Text}
    (haddress : ∀ line ∈ lines, ∀ l, link l ∈ ofLine line → Link.IsTarget (address l))
    (hlinks : (lines.flatMap fun line => links (ofLine (Text.readdressed address line))) =
      (lines.flatMap fun line => links (ofLine line)).map (Link.readdressed address)) :
    ∀ line ∈ lines, KeepsParens address line := by
  induction lines with
  | nil => nofun
  | cons line lines ih =>
      obtain ⟨hline, hlines⟩ := List.forall_mem_cons.mp haddress
      rw [List.flatMap_cons, List.flatMap_cons, List.map_append] at hlinks
      have hkeeps := keepsParens_of_links hline hlinks
      rw [links_ofLine_readdressed hline hkeeps] at hlinks
      exact List.forall_mem_cons.mpr ⟨hkeeps, ih hlines (List.append_cancel_left hlinks)⟩

end Piece
end Shorthand
