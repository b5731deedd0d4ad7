import Mathlib.Data.List.TakeWhile
import Mathlib.Data.Option.Basic
import Shorthand.Proofs.Toml.Reader
import Shorthand.Toml.Printer
import Shorthand.Toml.Statement

/-!
White space and comments: what may stand between the elements of an array and between the lines of
a document, and what may end a line. Readers take all of it and only such text.
-/

namespace Shorthand
namespace Toml

def IsSpaces (s : Text) : Prop :=
  ∀ c ∈ s, isSpace c = true

/-- Nothing, or a comment without its line end. -/
inductive IsRemark : Text → Prop where
  | nil : IsRemark []
  | comment {body : Text} (h : ∀ c ∈ body, isPrintable c = true) : IsRemark ('#' :: body)

inductive IsFeed : Text → Prop where
  | feed : IsFeed ['\n']
  | returned : IsFeed ['\r', '\n']

/-- White space, line ends and comments with their line ends. -/
inductive IsGap : Text → Prop where
  | nil : IsGap []
  | space {c : Char} {s : Text} (hc : isSpace c = true) (h : IsGap s) : IsGap (c :: s)
  | line {remark feed s : Text} (hremark : IsRemark remark) (hfeed : IsFeed feed) (h : IsGap s) :
      IsGap (remark ++ (feed ++ s))

def opensLine (c : Char) : Bool :=
  c = '\n' || c = '\r'

def opensGap (c : Char) : Bool :=
  isSpace c || opensLine c || c = '#'

variable {s rest : Text}

@[simp] theorem isSpaces_nil : IsSpaces [] := nofun

theorem isSpaces_blank : IsSpaces [' '] := by
  simp [IsSpaces, isSpace]

theorem isSpaces_append {s₁ s₂ : Text} : IsSpaces (s₁ ++ s₂) ↔ IsSpaces s₁ ∧ IsSpaces s₂ :=
  List.forall_mem_append

theorem Stops.isSpace_of_opensGap (h : Stops opensGap s) : Stops isSpace s := by
  intro c hc
  have := h c hc
  simp_all [opensGap]

theorem Stops.opensLine_of_opensGap (h : Stops opensGap s) : Stops opensLine s := by
  intro c hc
  have := h c hc
  simp_all [opensGap]

theorem ne_return_of_isSpace {c : Char} (h : isSpace c = true) : c ≠ '\r' := by
  rintro rfl
  contradiction

theorem ne_return_of_isPrintable {c : Char} (h : isPrintable c = true) : c ≠ '\r' := by
  rintro rfl
  contradiction

theorem withoutReturns_append (s₁ s₂ : Text) :
    withoutReturns (s₁ ++ s₂) = withoutReturns s₁ ++ withoutReturns s₂ :=
  List.filter_append ..

theorem withoutReturns_eq_self (h : ∀ c ∈ s, c ≠ '\r') : withoutReturns s = s := by
  rw [withoutReturns, List.filter_eq_self]
  simpa using h

theorem IsSpaces.withoutReturns (h : IsSpaces s) : withoutReturns s = s :=
  withoutReturns_eq_self fun c hc => ne_return_of_isSpace (h c hc)

theorem IsRemark.withoutReturns (h : IsRemark s) : withoutReturns s = s := by
  apply withoutReturns_eq_self
  cases h with
  | nil => nofun
  | comment h =>
      rw [List.forall_mem_cons]
      exact ⟨by decide, fun c hc => ne_return_of_isPrintable (h c hc)⟩

theorem IsSpaces.isGap (h : IsSpaces s) : IsGap s := by
  induction s with
  | nil => exact .nil
  | cons c s ih =>
      obtain ⟨hc, hs⟩ := List.forall_mem_cons.mp h
      exact .space hc (ih hs)

theorem IsGap.append {s₁ s₂ : Text} (h₁ : IsGap s₁) (h₂ : IsGap s₂) : IsGap (s₁ ++ s₂) := by
  induction h₁ with
  | nil => exact h₂
  | space hc _ ih => exact .space hc ih
  | line hremark hfeed _ ih =>
      rw [List.append_assoc, List.append_assoc]
      exact .line hremark hfeed ih

theorem IsGap.withoutReturns (h : IsGap s) : IsGap (withoutReturns s) := by
  induction h with
  | nil => exact .nil
  | space hc _ ih =>
      rw [Toml.withoutReturns, List.filter_cons_of_pos (by simpa using ne_return_of_isSpace hc)]
      exact .space hc ih
  | line hremark hfeed _ ih =>
      rw [withoutReturns_append, withoutReturns_append, hremark.withoutReturns]
      cases hfeed with
      | feed => exact .line hremark .feed ih
      | returned => exact .line hremark .feed ih

theorem IsGap.dropWhile_isSpace (h : IsGap s) : IsGap (s.dropWhile isSpace) := by
  induction h with
  | nil => exact .nil
  | space hc _ ih => rwa [List.dropWhile_cons_of_pos hc]
  | line hremark hfeed h _ =>
      have hline := IsGap.line hremark hfeed h
      cases hremark <;> cases hfeed <;> exact hline

theorem isPrintable_feed : isPrintable '\n' = false := by decide

theorem isPrintable_return : isPrintable '\r' = false := by decide

theorem IsFeed.stops_isPrintable {feed : Text} (h : IsFeed feed) (rest : Text) :
    Stops isPrintable (feed ++ rest) := by
  cases h with
  | feed => exact stops_cons.mpr isPrintable_feed
  | returned => exact stops_cons.mpr isPrintable_return

namespace Reader

theorem spaces_takes (h : IsSpaces s) : Takes spaces s s isSpace :=
  takeWhile_takes h

theorem spaces_eq_ok {t : Text} (h : spaces s = .ok (t, rest)) :
    s = t ++ rest ∧ IsSpaces t := by
  obtain ⟨rfl, rfl⟩ := takeWhile_eq_ok.mp h
  exact ⟨List.takeWhile_append_dropWhile.symm, fun c hc => List.mem_takeWhile_imp hc⟩

theorem newline_eq_ok {u : Unit} :
    newline s = .ok (u, rest) ↔ ∃ feed, IsFeed feed ∧ s = feed ++ rest := by
  simp only [newline, orElse_eq_ok, exactly_eq_ok]
  constructor
  · rintro (rfl | ⟨-, rfl⟩)
    · exact ⟨_, .feed, rfl⟩
    · exact ⟨_, .returned, rfl⟩
  · rintro ⟨feed, hfeed, rfl⟩
    cases hfeed with
    | feed => exact .inl rfl
    | returned => exact .inr ⟨exactly_fails (stops_cons.mpr (by decide)), rfl⟩

theorem newline_fails (h : Stops opensLine s) : Fails newline s := by
  refine fails_of_forall fun u rest hr => ?_
  obtain ⟨feed, hfeed, rfl⟩ := newline_eq_ok.mp hr
  cases hfeed <;> simp [opensLine] at h

theorem comment_eq_ok {u : Unit} :
    comment s = .ok (u, rest) ↔
      ∃ body, s = '#' :: body ∧ rest = body.dropWhile isPrintable := by
  simp only [comment, bind_eq_ok, discard_eq_ok, exactly_eq_ok, takeWhile_eq_ok]
  constructor
  · rintro ⟨-, body, rfl, -, -, rfl⟩
    exact ⟨body, rfl, rfl⟩
  · rintro ⟨body, rfl, rfl⟩
    exact ⟨(), body, rfl, _, rfl, rfl⟩

theorem comment_append {body : Text} (h : ∀ c ∈ body, isPrintable c = true)
    (hrest : Stops isPrintable rest) : comment ('#' :: (body ++ rest)) = .ok ((), rest) :=
  comment_eq_ok.mpr ⟨_, rfl, (takeWhile_append h hrest).2.symm⟩

theorem comment_fails (h : Stops opensGap s) : Fails comment s := by
  refine fails_of_forall fun u rest hr => ?_
  obtain ⟨body, rfl, -⟩ := comment_eq_ok.mp hr
  simp [opensGap] at h

theorem exists_remark_of_comment {u : Unit} (h : comment s = .ok (u, rest)) :
    ∃ remark, IsRemark remark ∧ remark ≠ [] ∧ s = remark ++ rest := by
  obtain ⟨body, rfl, rfl⟩ := comment_eq_ok.mp h
  refine ⟨'#' :: body.takeWhile isPrintable, .comment fun c hc => List.mem_takeWhile_imp hc,
    List.cons_ne_nil _ _, ?_⟩
  rw [List.cons_append, List.takeWhile_append_dropWhile]

/-- The white space that makes up a piece of a gap. -/
def blank : Reader Unit := do
  guard ((← spaces) ≠ [])

theorem blank_eq_ok {u : Unit} :
    blank s = .ok (u, rest) ↔ s.takeWhile isSpace ≠ [] ∧ rest = s.dropWhile isSpace := by
  simp only [blank, bind_eq_ok, guard_eq_ok, spaces, takeWhile_eq_ok]
  constructor
  · rintro ⟨-, -, ⟨rfl, rfl⟩, hne, rfl⟩
    exact ⟨hne, rfl⟩
  · rintro ⟨hne, rfl⟩
    exact ⟨_, _, ⟨rfl, rfl⟩, hne, rfl⟩

theorem blank_fails (h : Stops isSpace s) : Fails blank s := by
  refine fails_of_forall fun u rest hr => (blank_eq_ok.mp hr).1 ?_
  cases s with
  | nil => rfl
  | cons c s => exact List.takeWhile_cons_of_neg (by simpa using h)

/-- Repeats a reader as long as it reads something. -/
def repeated (piece : Reader Unit) : Nat → Reader Unit
  | 0 => pure ()
  | fuel + 1 => do
      match ← optional? piece with
      | some _ => repeated piece fuel
      | none => pure ()

/-- The pieces of gaps, where a comment may also end in another way than with its line. -/
def piece (ending : Reader Unit) : Reader Unit :=
  newline <|> (comment *> ending) <|> blank

theorem gapPieces_eq (fuel : Nat) : gapPieces fuel = repeated (piece newline) fuel := by
  induction fuel with
  | zero => rfl
  | succ fuel ih => rw [gapPieces, repeated, ← ih]; rfl

theorem leadPieces_eq (fuel : Nat) :
    leadPieces fuel = repeated (piece (newline <|> atEnd)) fuel := by
  induction fuel with
  | zero => rfl
  | succ fuel ih => rw [leadPieces, repeated, ← ih]; rfl

variable {ending : Reader Unit}

theorem repeated_of_reads {p : Reader Unit} {fuel : Nat} (h : p s = .ok ((), rest)) :
    repeated p (fuel + 1) s = repeated p fuel rest := by
  rw [repeated, bind_run (optional?_eq_ok.mpr (.inl ⟨(), rfl, h⟩))]

theorem repeated_of_fails {p : Reader Unit} (h : Fails p s) (fuel : Nat) :
    repeated p fuel s = .ok ((), s) := by
  cases fuel with
  | zero => rfl
  | succ fuel =>
      rw [repeated, bind_run (optional?_eq_ok.mpr (.inr ⟨rfl, rfl, h⟩))]
      rfl

theorem piece_fails (h : Stops opensGap s) : Fails (piece ending) s := by
  refine fails_of_forall fun u rest hr => ?_
  simp only [piece, orElse_eq_ok, seqRight_eq_ok] at hr
  rcases hr with hr | ⟨-, ⟨u', mid, hr, -⟩ | ⟨-, hr⟩⟩
  · exact newline_fails h.opensLine_of_opensGap _ hr
  · exact comment_fails h _ hr
  · exact blank_fails h.isSpace_of_opensGap _ hr

/-- The reader at the end of comments takes line ends. -/
def EndsLines (ending : Reader Unit) : Prop :=
  ∀ feed rest, IsFeed feed → ending (feed ++ rest) = .ok ((), rest)

theorem newline_endsLines : EndsLines newline :=
  fun _ _ h => newline_eq_ok.mpr ⟨_, h, rfl⟩

theorem orElse_endsLines {x y : Reader Unit} (h : EndsLines x) : EndsLines (x <|> y) :=
  fun _ _ hfeed => orElse_eq_ok.mpr (.inl (h _ _ hfeed))

theorem piece_line (hending : EndsLines ending) {remark feed : Text} (hremark : IsRemark remark)
    (hfeed : IsFeed feed) : piece ending (remark ++ (feed ++ rest)) = .ok ((), rest) := by
  cases hremark with
  | nil => exact orElse_eq_ok.mpr (.inl (newline_endsLines _ _ hfeed))
  | comment h =>
      refine orElse_eq_ok.mpr (.inr ⟨?_, orElse_eq_ok.mpr (.inl ?_)⟩)
      · refine fails_of_forall fun u r hr => ?_
        obtain ⟨f, hf, hr⟩ := newline_eq_ok.mp hr
        cases hf <;> cases hr
      · exact seqRight_eq_ok.mpr
          ⟨(), _, comment_append h (hfeed.stops_isPrintable _), hending _ _ hfeed⟩

theorem piece_space {c : Char} (hc : isSpace c = true) :
    piece ending (c :: s) = .ok ((), s.dropWhile isSpace) := by
  refine orElse_eq_ok.mpr (.inr ⟨?_, orElse_eq_ok.mpr (.inr ⟨?_, ?_⟩)⟩)
  · refine fails_of_forall fun u r hr => ?_
    obtain ⟨f, hf, hr⟩ := newline_eq_ok.mp hr
    cases hf <;> cases hr <;> contradiction
  · refine fails_of_forall fun u r hr => ?_
    obtain ⟨_, mid, hcomment, -⟩ := seqRight_eq_ok.mp hr
    obtain ⟨body, hbody, -⟩ := comment_eq_ok.mp hcomment
    cases hbody
    contradiction
  · refine blank_eq_ok.mpr ⟨?_, ?_⟩
    · rw [List.takeWhile_cons_of_pos hc]
      exact List.cons_ne_nil _ _
    · rw [List.dropWhile_cons_of_pos hc]

end Reader

theorem dropWhile_append_of_stops (hrest : Stops isSpace rest) :
    (s ++ rest).dropWhile isSpace = s.dropWhile isSpace ++ rest := by
  induction s with
  | nil =>
      cases rest with
      | nil => rfl
      | cons c rest => exact List.dropWhile_cons_of_neg (by simpa using hrest)
  | cons c s ih =>
      by_cases hc : isSpace c = true
      · rw [List.cons_append, List.dropWhile_cons_of_pos hc, List.dropWhile_cons_of_pos hc, ih]
      · rw [List.cons_append, List.dropWhile_cons_of_neg hc, List.dropWhile_cons_of_neg hc,
          List.cons_append]

namespace Reader

variable {ending : Reader Unit}

/-- A gap is read with some of the fuel left, whatever comes after it. -/
theorem repeated_gap (hending : EndsLines ending) (hrest : Stops isSpace rest) {fuel : Nat}
    (hs : IsGap s) (hfuel : s.length ≤ fuel) :
    ∃ left, fuel ≤ left + s.length ∧
      repeated (piece ending) fuel (s ++ rest) = repeated (piece ending) left rest := by
  induction hn : s.length using Nat.strongRecOn generalizing s fuel with
  | ind n ih =>
      cases hs with
      | nil => exact ⟨fuel, by omega, rfl⟩
      | @space c s hc h =>
          obtain ⟨fuel, rfl⟩ : ∃ m, fuel = m + 1 := ⟨fuel - 1, by simp at hfuel; omega⟩
          have hlength : (s.dropWhile isSpace).length ≤ s.length :=
            (List.dropWhile_suffix _).length_le
          rw [List.length_cons] at hn hfuel
          have hfuel' : (s.dropWhile isSpace).length ≤ fuel := by omega
          obtain ⟨left, hleft, hread⟩ := ih _ (by omega) h.dropWhile_isSpace hfuel' rfl
          refine ⟨left, by omega, ?_⟩
          rw [List.cons_append, repeated_of_reads (piece_space hc),
            dropWhile_append_of_stops hrest, hread]
      | @line remark feed s hremark hfeed h =>
          have hpos : 0 < feed.length := by cases hfeed <;> simp
          simp only [List.length_append] at hn hfuel
          obtain ⟨fuel, rfl⟩ : ∃ m, fuel = m + 1 := ⟨fuel - 1, by omega⟩
          have hfuel' : s.length ≤ fuel := by omega
          obtain ⟨left, hleft, hread⟩ := ih s.length (by omega) h hfuel' rfl
          refine ⟨left, by omega, ?_⟩
          rw [List.append_assoc, List.append_assoc,
            repeated_of_reads (piece_line hending hremark hfeed), hread]

theorem repeated_gap_stops (hending : EndsLines ending) (hs : IsGap s)
    (hrest : Stops opensGap rest) :
    bounded (repeated (piece ending)) (s ++ rest) = .ok ((), rest) := by
  have hfuel : s.length ≤ (s ++ rest).length + 1 := by
    rw [List.length_append]
    omega
  obtain ⟨left, -, hread⟩ := repeated_gap hending hrest.isSpace_of_opensGap hs hfuel
  rw [bounded, hread, repeated_of_fails (piece_fails hrest)]

theorem gap_takes (hs : IsGap s) : Takes gap s s opensGap := by
  intro rest hrest
  have hread : bounded gapPieces (s ++ rest) = .ok ((), rest) := by
    rw [bounded, gapPieces_eq]
    exact repeated_gap_stops newline_endsLines hs hrest
  rw [gap, bind_run (spelled_append hread)]
  rfl

theorem lead_takes (hs : IsGap s) : Takes lead s s opensGap := by
  intro rest hrest
  have hread : bounded leadPieces (s ++ rest) = .ok ((), rest) := by
    rw [bounded, leadPieces_eq]
    exact repeated_gap_stops (orElse_endsLines newline_endsLines) hs hrest
  rw [lead, bind_run (spelled_append hread)]
  rfl

theorem piece_remark_atEnd {remark : Text} (h : IsRemark remark) (hne : remark ≠ []) :
    piece (newline <|> atEnd) remark = .ok ((), []) := by
  cases h with
  | nil => contradiction
  | @comment body h =>
      have hbody : comment ('#' :: body) = .ok ((), []) := by
        have hread : comment ('#' :: (body ++ [])) = .ok ((), []) := comment_append h stops_nil
        rwa [List.append_nil] at hread
      refine orElse_eq_ok.mpr (.inr ⟨?_, orElse_eq_ok.mpr (.inl ?_)⟩)
      · refine fails_of_forall fun u r hr => ?_
        obtain ⟨f, hf, hr⟩ := newline_eq_ok.mp hr
        cases hf <;> cases hr
      · refine seqRight_eq_ok.mpr ⟨(), [], hbody, orElse_eq_ok.mpr (.inr ⟨?_, ?_⟩)⟩
        · exact newline_fails stops_nil
        · exact atEnd_eq_ok.mpr ⟨rfl, rfl⟩

/-- The last line of a document may be a comment without a line end. -/
theorem lead_atEnd {remark : Text} (hs : IsGap s) (hremark : IsRemark remark) :
    lead (s ++ remark) = .ok (s ++ remark, []) := by
  have hstops : Stops isSpace remark := by cases hremark <;> simp [isSpace]
  have hread : bounded leadPieces (s ++ remark ++ []) = .ok ((), []) := by
    rw [bounded, leadPieces_eq, List.append_nil]
    have hfuel : s.length ≤ (s ++ remark).length + 1 := by
      rw [List.length_append]
      omega
    obtain ⟨left, hleft, hread⟩ := repeated_gap (orElse_endsLines newline_endsLines) hstops hs hfuel
    rw [hread]
    by_cases hne : remark = []
    · subst hne
      exact repeated_of_fails (piece_fails stops_nil) left
    · obtain ⟨left, rfl⟩ : ∃ m, left = m + 1 := ⟨left - 1, by simp at hleft; omega⟩
      rw [repeated_of_reads (piece_remark_atEnd hremark hne)]
      exact repeated_of_fails (piece_fails stops_nil) left
  have := bind_run (f := fun r => pure r.2) (spelled_append hread)
  rwa [List.append_nil] at this

theorem lineTail_append {remark : Text} (hs : IsSpaces s) (hremark : IsRemark remark)
    (rest : Text) : lineTail (s ++ remark ++ '\n' :: rest) = .ok (s ++ remark, rest) := by
  have hread : (spaces *> optional? comment) (s ++ remark ++ '\n' :: rest) =
      .ok (if remark = [] then none else some (), '\n' :: rest) := by
    rw [List.append_assoc]
    refine seqRight_eq_ok.mpr ⟨s, _, spaces_takes hs _ ?_, optional?_eq_ok.mpr ?_⟩
    · cases hremark <;> simp [isSpace]
    · cases hremark with
      | nil => exact .inr ⟨rfl, rfl, fails_of_forall fun u r hr => by
          obtain ⟨body, hr, -⟩ := comment_eq_ok.mp hr
          cases hr⟩
      | comment h =>
          exact .inl ⟨(), rfl, comment_append h (stops_cons.mpr isPrintable_feed)⟩
  rw [lineTail, bind_run (spelled_append hread)]
  exact bind_eq_ok.mpr
    ⟨(), rest, orElse_eq_ok.mpr (.inl (newline_eq_ok.mpr ⟨_, .feed, rfl⟩)), rfl⟩

/-- What is read piece by piece is a gap. Where comments may end with the text, one may follow. -/
theorem exists_gap_of_repeated {ended : Prop} {fuel : Nat} {u : Unit}
    (hending : ∀ {s rest : Text} {u : Unit}, ending s = .ok (u, rest) →
      (∃ feed, IsFeed feed ∧ s = feed ++ rest) ∨ ended ∧ s = [] ∧ rest = [])
    (h : repeated (piece ending) fuel s = .ok (u, rest)) :
    ∃ g remark, s = g ++ remark ++ rest ∧ IsGap g ∧ IsRemark remark ∧
      (remark = [] ∨ ended ∧ rest = []) := by
  induction fuel generalizing s with
  | zero =>
      obtain ⟨-, rfl⟩ := pure_eq_ok.mp h
      exact ⟨[], [], rfl, .nil, .nil, .inl rfl⟩
  | succ fuel ih =>
      obtain ⟨o, mid, ho, h⟩ := bind_eq_ok.mp h
      rcases optional?_eq_ok.mp ho with ⟨u, rfl, hpiece⟩ | ⟨rfl, rfl, -⟩
      · obtain ⟨g, remark, rfl, hg, hremark, hend⟩ := ih h
        simp only [piece, orElse_eq_ok, seqRight_eq_ok] at hpiece
        rcases hpiece with hline | ⟨-, ⟨_, mid, hcomment, hline⟩ | ⟨-, hblank⟩⟩
        · obtain ⟨feed, hfeed, rfl⟩ := newline_eq_ok.mp hline
          exact ⟨feed ++ g, remark, by simp, .line .nil hfeed hg, hremark, hend⟩
        · obtain ⟨body, hbody, hne, rfl⟩ := exists_remark_of_comment hcomment
          rcases hending hline with ⟨feed, hfeed, rfl⟩ | ⟨hended, rfl, hrest⟩
          · exact ⟨body ++ (feed ++ g), remark, by simp, .line hbody hfeed hg, hremark, hend⟩
          · obtain ⟨rfl, rfl, rfl⟩ : g = [] ∧ remark = [] ∧ rest = [] := by
              simpa using hrest
            exact ⟨[], body, by simp, .nil, hbody, .inr ⟨hended, rfl⟩⟩
        · obtain ⟨-, hmid⟩ := blank_eq_ok.mp hblank
          refine ⟨s.takeWhile isSpace ++ g, remark, ?_, ?_, hremark, hend⟩
          · rw [List.append_assoc, List.append_assoc, ← List.append_assoc g, hmid,
              List.takeWhile_append_dropWhile]
          · exact (IsSpaces.isGap fun c hc => List.mem_takeWhile_imp hc).append hg
      · obtain ⟨-, rfl⟩ := pure_eq_ok.mp h
        exact ⟨[], [], rfl, .nil, .nil, .inl rfl⟩

theorem gap_eq_ok {t : Text} (h : gap s = .ok (t, rest)) : s = t ++ rest ∧ IsGap t := by
  obtain ⟨⟨u, taken⟩, mid, hread, h⟩ := bind_eq_ok.mp h
  obtain ⟨rfl, rfl⟩ := pure_eq_ok.mp h
  have hpieces := (spelled_eq_ok.mp hread).1
  rw [bounded, gapPieces_eq] at hpieces
  obtain ⟨g, remark, hs, hg, -, hremark⟩ := @exists_gap_of_repeated _ _ _ False _ _
    (fun h => .inl (newline_eq_ok.mp h)) hpieces
  obtain rfl : remark = [] := hremark.resolve_right And.left
  rw [List.append_nil] at hs
  rw [spelled_of_eq_append hread hs]
  exact ⟨hs, hg⟩

theorem lead_eq_ok {t : Text} (h : lead s = .ok (t, rest)) :
    s = t ++ rest ∧ ∃ g remark, t = g ++ remark ∧ IsGap g ∧ IsRemark remark ∧
      (remark = [] ∨ rest = []) := by
  obtain ⟨⟨u, taken⟩, mid, hread, h⟩ := bind_eq_ok.mp h
  obtain ⟨rfl, rfl⟩ := pure_eq_ok.mp h
  have hpieces := (spelled_eq_ok.mp hread).1
  rw [bounded, leadPieces_eq] at hpieces
  have hending {s rest : Text} {u : Unit} (h : (newline <|> atEnd) s = .ok (u, rest)) :
      (∃ feed, IsFeed feed ∧ s = feed ++ rest) ∨ True ∧ s = [] ∧ rest = [] := by
    rcases orElse_eq_ok.mp h with h | ⟨-, h⟩
    · exact .inl (newline_eq_ok.mp h)
    · exact .inr ⟨trivial, atEnd_eq_ok.mp h⟩
  obtain ⟨g, remark, hs, hg, hremark, hend⟩ := exists_gap_of_repeated hending hpieces
  rw [spelled_of_eq_append hread hs]
  exact ⟨hs, g, remark, rfl, hg, hremark, hend.imp_right And.right⟩

theorem lineTail_eq_ok {t : Text} (h : lineTail s = .ok (t, rest)) :
    ∃ blanks remark, t = blanks ++ remark ∧ IsSpaces blanks ∧ IsRemark remark := by
  obtain ⟨⟨o, taken⟩, mid, hread, h⟩ := bind_eq_ok.mp h
  obtain ⟨-, mid', -, h⟩ := bind_eq_ok.mp h
  obtain ⟨rfl, rfl⟩ := pure_eq_ok.mp h
  obtain ⟨blanks, mid'', hblanks, ho⟩ := seqRight_eq_ok.mp (spelled_eq_ok.mp hread).1
  obtain ⟨rfl, hspaces⟩ := spaces_eq_ok hblanks
  rcases optional?_eq_ok.mp ho with ⟨u, rfl, hcomment⟩ | ⟨rfl, rfl, -⟩
  · obtain ⟨remark, hremark, -, rfl⟩ := exists_remark_of_comment hcomment
    rw [← List.append_assoc] at hread
    exact ⟨blanks, remark, spelled_of_eq_append hread rfl, hspaces, hremark⟩
  · exact ⟨blanks, [], by rw [List.append_nil]; exact spelled_of_eq_append hread rfl, hspaces, .nil⟩

end Reader
end Toml
end Shorthand
