import Shorthand.Proofs.Toml.Blank
import Shorthand.Toml.Strings

/-!
Strings are read by themselves: a string read in front of one text is read the same in front of
another that does not go on with a quote.
-/

namespace Shorthand
namespace Toml

def isQuote (c : Char) : Bool :=
  c = '"' || c = '\''

theorem isQuote_iff {c : Char} : isQuote c = true ↔ c = '"' ∨ c = '\'' := by
  simp only [isQuote, Bool.or_eq_true, decide_eq_true_eq]

variable {s rest v : Text} {c : Char}

theorem consTo_eq_some {r : Option (Text × Text)} :
    consTo c r = some (v, rest) ↔ ∃ v', r = some (v', rest) ∧ v = c :: v' := by
  unfold consTo
  rw [Option.map_eq_some_iff]
  constructor
  · rintro ⟨⟨v', rest'⟩, h, heq⟩
    cases heq
    exact ⟨v', h, rfl⟩
  · rintro ⟨v', h, rfl⟩
    exact ⟨_, h, rfl⟩

/-- The escapes that give a character by so many digits. -/
def numbered? (digits : Nat) (s : Text) : Option (Char × Nat) :=
  if s.length < digits then none
  else ((hexValue? (s.take digits)).bind scalarValue?).map fun c => (c, digits + 1)

theorem escape?_cons (x : Char) (s : Text) :
    escape? (x :: s) = if x = 'u' then numbered? 4 s else if x = 'U' then numbered? 8 s
      else (shortEscape? x).map fun c => (c, 1) := by
  by_cases hu : x = 'u'
  · subst hu
    rfl
  · by_cases hU : x = 'U'
    · subst hU
      rfl
    · rw [if_neg hu, if_neg hU]
      simp only [escape?]

theorem numbered?_of_prefix {digits n : Nat} (h : numbered? digits (s ++ rest) = some (c, n))
    (hn : n ≤ s.length + 1) (other : Text) : numbered? digits (s ++ other) = some (c, n) := by
  unfold numbered? at h ⊢
  split at h
  · contradiction
  · have hdigits : digits ≤ s.length := by
      obtain ⟨c', -, hcn⟩ := Option.map_eq_some_iff.mp h
      cases hcn
      exact Nat.le_of_succ_le_succ hn
    rw [List.take_append_of_le_length hdigits] at h ⊢
    rw [if_neg (by rw [List.length_append]; omega), h]

theorem escape?_of_prefix {n : Nat} (h : escape? (s ++ rest) = some (c, n)) (hs : s ≠ [])
    (hn : n ≤ s.length) (other : Text) : escape? (s ++ other) = some (c, n) := by
  obtain ⟨x, s, rfl⟩ := List.exists_cons_of_ne_nil hs
  rw [List.cons_append, escape?_cons] at h ⊢
  split
  · rename_i hu
    rw [if_pos hu] at h
    exact numbered?_of_prefix h hn other
  · rename_i hu
    rw [if_neg hu] at h
    split
    · rename_i hU
      rw [if_pos hU] at h
      exact numbered?_of_prefix h hn other
    · rename_i hU
      rwa [if_neg hU] at h

/-- What is read as the rest of a one-line string does not depend on what follows it. -/
theorem basicTail_eq_some {skip : Nat} (h : basicTail skip s = some (v, rest)) :
    ∃ t, s = t ++ rest ∧ skip < t.length ∧
      ∀ other, basicTail skip (t ++ other) = some (v, other) := by
  induction s generalizing skip v with
  | nil => cases skip <;> contradiction
  | cons c s ih =>
      cases skip with
      | succ skip =>
          obtain ⟨t, rfl, hskip, ht⟩ := ih h
          exact ⟨c :: t, rfl, Nat.succ_lt_succ hskip, ht⟩
      | zero =>
          unfold basicTail at h
          split at h
          · rename_i hc
            cases h
            exact ⟨[c], rfl, Nat.one_pos, fun other => by simp [basicTail, hc]⟩
          · rename_i hquote
            split at h
            · rename_i hslash
              split at h
              · rename_i e n hescape
                obtain ⟨v', hrest, rfl⟩ := consTo_eq_some.mp h
                obtain ⟨t, rfl, hn, ht⟩ := ih hrest
                refine ⟨c :: t, rfl, by simp, fun other => ?_⟩
                have hescape' := escape?_of_prefix hescape (List.ne_nil_of_length_pos (by omega))
                  (by omega) other
                simp only [List.cons_append, basicTail, if_neg hquote, if_pos hslash, hescape', ht]
                rfl
              · contradiction
            · rename_i hslash
              split at h
              · rename_i hprintable
                obtain ⟨v', hrest, rfl⟩ := consTo_eq_some.mp h
                obtain ⟨t, rfl, -, ht⟩ := ih hrest
                refine ⟨c :: t, rfl, by simp, fun other => ?_⟩
                simp only [List.cons_append, basicTail, if_neg hquote, if_neg hslash,
                  if_pos hprintable, ht]
                rfl
              · contradiction

theorem literalTail_eq_some (h : literalTail s = some (v, rest)) :
    ∃ t, s = t ++ rest ∧ ∀ other, literalTail (t ++ other) = some (v, other) := by
  induction s generalizing v with
  | nil => contradiction
  | cons c s ih =>
      unfold literalTail at h
      split at h
      · rename_i hc
        cases h
        exact ⟨[c], rfl, fun other => by simp [literalTail, hc]⟩
      · rename_i hquote
        split at h
        · rename_i hprintable
          obtain ⟨v', hrest, rfl⟩ := consTo_eq_some.mp h
          obtain ⟨t, rfl, ht⟩ := ih hrest
          refine ⟨c :: t, rfl, fun other => ?_⟩
          simp only [List.cons_append, literalTail, if_neg hquote, if_pos hprintable, ht]
          rfl
        · contradiction

theorem closeQuotes_of_stops {quote : Char} (h : Stops (· == quote) rest) :
    closeQuotes quote rest = ([], rest) := by
  match rest with
  | [] => rfl
  | [d] => simp_all [closeQuotes]
  | d :: e :: rest => simp_all [closeQuotes]

theorem closeQuotes_one {quote : Char} (h : Stops (· == quote) rest) :
    closeQuotes quote (quote :: rest) = ([quote], rest) := by
  match rest with
  | [] => simp [closeQuotes]
  | d :: rest => simp_all [closeQuotes]

theorem closeQuotes_two (quote : Char) (rest : Text) :
    closeQuotes quote (quote :: quote :: rest) = ([quote, quote], rest) := by
  simp [closeQuotes]

theorem closeQuotes_eq {quote : Char} (h : closeQuotes quote s = (v, rest)) :
    s = v ++ rest ∧ ∀ other, Stops (· == quote) other →
      closeQuotes quote (v ++ other) = (v, other) := by
  unfold closeQuotes at h
  split at h
  · rename_i c₁ c₂ r
    split at h
    · rename_i h₁
      split at h
      · rename_i h₂
        cases h
        subst h₁ h₂
        exact ⟨rfl, fun other _ => closeQuotes_two _ other⟩
      · cases h
        subst h₁
        exact ⟨rfl, fun other => closeQuotes_one⟩
    · cases h
      exact ⟨rfl, fun other => closeQuotes_of_stops⟩
  · split at h
    · rename_i h₁
      cases h
      subst h₁
      exact ⟨rfl, fun other => closeQuotes_one⟩
    · cases h
      exact ⟨rfl, fun other => closeQuotes_of_stops⟩
  · cases h
    exact ⟨rfl, fun other => closeQuotes_of_stops⟩

/-- Whether a line ends after white space shows before the next character that is none. -/
theorem endsLine_of_prefix {quote : Char} (hmem : quote ∈ s) (hspace : isSpace quote = false)
    (hreturn : quote ≠ '\r') (rest other : Text) :
    endsLine (s ++ rest) = endsLine (s ++ other) := by
  induction s with
  | nil => contradiction
  | cons c s ih =>
      by_cases hc : isSpace c = true
      · have hs : quote ∈ s := by
          rcases List.mem_cons.mp hmem with rfl | hs
          · rw [hspace] at hc
            contradiction
          · exact hs
        simpa only [endsLine, List.cons_append, List.dropWhile_cons_of_pos hc] using ih hs
      · simp only [endsLine, List.cons_append, List.dropWhile_cons_of_neg hc]
        cases s with
        | nil =>
            obtain rfl := List.mem_singleton.mp hmem
            by_cases hfeed : quote = '\n' <;> simp [hfeed, hreturn]
        | cons d s =>
            by_cases hfeed : c = '\n'
            · simp [hfeed]
            · by_cases hline : c = '\r' ∧ d = '\n'
              · simp [hline.1, hline.2]
              · simp only [List.cons_append]
                split <;> simp_all

theorem isPrefixOf_three {quote : Char} (h : 2 ≤ s.length) (c : Char) (rest other : Text) :
    [quote, quote, quote].isPrefixOf (c :: (s ++ rest)) =
      [quote, quote, quote].isPrefixOf (c :: (s ++ other)) := by
  match s with
  | d :: e :: s => simp [List.isPrefixOf]

/-- What the first character of the rest of a string of several lines does: the string goes on with
what the character is read as, or ends here. -/
inductive BlockStep where
  | goesOn (value : Text) (folding : Bool) (skip : Nat)
  | closes
  | fails

/-- How a character is read in front of a text. -/
def blockStep (quote : Char) (escapes folding : Bool) (c : Char) (s : Text) : BlockStep :=
  if c = '\n' then
    if folding then .goesOn [] true 0 else .goesOn ['\n'] false 0
  else if c = '\r' then
    if s.head? = some '\n' then .goesOn [] folding 0 else .fails
  else if folding && isSpace c then .goesOn [] true 0
  else if [quote, quote, quote].isPrefixOf (c :: s) then .closes
  else if escapes && c = '\\' then
    if endsLine s then .goesOn [] true 0
    else match escape? s with
      | some (e, n) => .goesOn [e] false n
      | none => .fails
  else if isPrintable c then .goesOn [c] false 0
  else .fails

theorem blockTail_eq_blockStep (quote : Char) (escapes folding : Bool) (c : Char) (s : Text) :
    blockTail quote escapes folding 0 (c :: s) = match blockStep quote escapes folding c s with
      | .goesOn value folding' skip =>
          (blockTail quote escapes folding' skip s).map fun (v, rest) => (value ++ v, rest)
      | .closes => some (closeQuotes quote (s.drop 2))
      | .fails => none := by
  have hnil (o : Option (Text × Text)) : o = o.map fun (v, rest) => ([] ++ v, rest) := by
    cases o <;> rfl
  rw [blockTail]
  unfold blockStep
  split
  · split
    · exact hnil _
    · rfl
  · split
    · split
      · exact hnil _
      · rfl
    · split
      · exact hnil _
      · split
        · rfl
        · split
          · split
            · exact hnil _
            · cases escape? s with
              | none => rfl
              | some found => rfl
          · split
            · rfl
            · rfl

theorem blockStep_quotes {quote : Char} (hquote : isQuote quote = true) (escapes folding : Bool)
    (s : Text) : blockStep quote escapes folding quote (quote :: quote :: s) = .closes := by
  rcases isQuote_iff.mp hquote with rfl | rfl <;> simp [blockStep, isSpace]

theorem blockTail_close {quote : Char} (hquote : isQuote quote = true) (escapes folding : Bool)
    (s : Text) : blockTail quote escapes folding 0 (quote :: quote :: quote :: s) =
      some (closeQuotes quote s) := by
  rw [blockTail_eq_blockStep, blockStep_quotes hquote]
  rfl

theorem exists_of_closes {quote : Char} {escapes folding : Bool}
    (h : blockStep quote escapes folding c s = .closes) :
    ∃ r, c = quote ∧ s = quote :: quote :: r := by
  have hclose : [quote, quote, quote].isPrefixOf (c :: s) = true := by
    by_contra hclose
    unfold blockStep at h
    grind
  obtain ⟨r, hr⟩ := List.isPrefixOf_iff_prefix.mp hclose
  cases hr
  exact ⟨r, rfl, rfl⟩

/-- Up to its closing quotes a string is read in the same way whatever follows them. -/
theorem blockStep_of_prefix {quote : Char} (hquote : isQuote quote = true)
    {escapes folding folding' : Bool} {skip : Nat}
    (h : blockStep quote escapes folding c (s ++ rest) = .goesOn v folding' skip)
    (hlength : skip + 3 ≤ s.length) (hmem : quote ∈ s) (other : Text) :
    blockStep quote escapes folding c (s ++ other) = .goesOn v folding' skip := by
  have hspace : isSpace quote = false := by
    rcases isQuote_iff.mp hquote with rfl | rfl <;> rfl
  have hreturn : quote ≠ '\r' := by
    rintro rfl
    contradiction
  have hne : s ≠ [] := List.ne_nil_of_mem hmem
  have hhead : (s ++ rest).head? = (s ++ other).head? := by
    rw [List.head?_append_of_ne_nil _ hne, List.head?_append_of_ne_nil _ hne]
  unfold blockStep at h ⊢
  rw [hhead, isPrefixOf_three (by omega) c rest other,
    endsLine_of_prefix hmem hspace hreturn rest other] at h
  -- Only what an escape stands for is left that is read from what follows.
  cases hescape : escape? (s ++ rest) with
  | none =>
      simp only [hescape] at h
      grind
  | some found =>
      obtain ⟨e, n⟩ := found
      simp only [hescape] at h
      by_cases hn : n ≤ s.length
      · have hsame := escape?_of_prefix hescape hne hn other
        simp only [hsame]
        exact h
      · grind

/-- What is read as the rest of a string of several lines does not depend on what follows it either,
as long as no quote does. -/
theorem blockTail_eq_some {quote : Char} (hquote : isQuote quote = true) {escapes folding : Bool}
    {skip : Nat} (h : blockTail quote escapes folding skip s = some (v, rest)) :
    ∃ t, s = t ++ rest ∧ skip + 3 ≤ t.length ∧ quote ∈ t ∧
      ∀ other, Stops (· == quote) other →
        blockTail quote escapes folding skip (t ++ other) = some (v, other) := by
  induction s generalizing folding skip v with
  | nil => cases skip <;> cases folding <;> contradiction
  | cons c s ih =>
      cases skip with
      | succ skip =>
          have h' : blockTail quote escapes folding skip s = some (v, rest) := by
            cases folding <;> exact h
          obtain ⟨t, rfl, hlength, hmem, ht⟩ := ih h'
          refine ⟨c :: t, rfl, by rw [List.length_cons]; omega, List.mem_cons_of_mem _ hmem, ?_⟩
          intro other hother
          rw [List.cons_append, blockTail, ht other hother]
      | zero =>
          rw [blockTail_eq_blockStep] at h
          cases hstep : blockStep quote escapes folding c s with
          | goesOn value folding' skip =>
              rw [hstep] at h
              obtain ⟨⟨v', rest'⟩, htail, heq⟩ := Option.map_eq_some_iff.mp h
              cases heq
              obtain ⟨t, rfl, hlength, hmem, ht⟩ := ih htail
              refine ⟨c :: t, rfl, by rw [List.length_cons]; omega, List.mem_cons_of_mem _ hmem, ?_⟩
              intro other hother
              rw [List.cons_append, blockTail_eq_blockStep,
                blockStep_of_prefix hquote hstep hlength hmem other]
              simp only [ht other hother, Option.map_some]
          | closes =>
              rw [hstep] at h
              obtain ⟨r, rfl, rfl⟩ := exists_of_closes hstep
              obtain ⟨hr, hclosed⟩ := closeQuotes_eq (Option.some.inj h)
              rw [List.drop_succ_cons, List.drop_succ_cons, List.drop_zero] at hr
              refine ⟨c :: c :: c :: v, by rw [hr]; rfl, by simp, List.mem_cons_self, ?_⟩
              intro other hother
              simp only [List.cons_append]
              rw [blockTail_close hquote, hclosed other hother]
          | fails =>
              rw [hstep] at h
              contradiction

namespace Reader

theorem basic_eq_ok (h : basic s = .ok (v, rest)) :
    ∃ t, s = '"' :: t ++ rest ∧ TakesAll basic ('"' :: t) v ∧
      ∀ other, basicTail 0 (t ++ other) = some (v, other) := by
  obtain ⟨u, mid, hquote, htail⟩ := bind_eq_ok.mp h
  obtain rfl := exactly_eq_ok.mp hquote
  obtain ⟨t, rfl, -, ht⟩ := basicTail_eq_some (ofOption_eq_ok.mp htail)
  exact ⟨t, rfl, fun other => bind_eq_ok.mpr
    ⟨(), t ++ other, exactly_eq_ok.mpr rfl, ofOption_eq_ok.mpr (ht other)⟩, ht⟩

theorem literal_eq_ok (h : literal s = .ok (v, rest)) :
    ∃ t, s = '\'' :: t ++ rest ∧ TakesAll literal ('\'' :: t) v ∧
      ∀ other, literalTail (t ++ other) = some (v, other) := by
  obtain ⟨u, mid, hquote, htail⟩ := bind_eq_ok.mp h
  obtain rfl := exactly_eq_ok.mp hquote
  obtain ⟨t, rfl, ht⟩ := literalTail_eq_some (ofOption_eq_ok.mp htail)
  exact ⟨t, rfl, fun other => bind_eq_ok.mpr
    ⟨(), t ++ other, exactly_eq_ok.mpr rfl, ofOption_eq_ok.mpr (ht other)⟩, ht⟩

theorem newline_fails_of_prefix (h : Fails newline (s ++ rest)) (hs : 2 ≤ s.length)
    (other : Text) : Fails newline (s ++ other) := by
  match s with
  | c :: d :: s =>
      refine fails_of_forall fun u r hr => ?_
      obtain ⟨feed, hfeed, heq⟩ := newline_eq_ok.mp hr
      cases hfeed with
      | feed => cases heq; exact h ((), _) (newline_eq_ok.mpr ⟨_, .feed, rfl⟩)
      | returned => cases heq; exact h ((), _) (newline_eq_ok.mpr ⟨_, .returned, rfl⟩)

theorem block_eq_ok {quote : Char} (hquote : isQuote quote = true) {escapes : Bool}
    (h : block quote escapes s = .ok (v, rest)) :
    ∃ t, s = quote :: t ++ rest ∧ Takes (block quote escapes) (quote :: t) v (· == quote) := by
  obtain ⟨u, mid, hopen, hread⟩ := bind_eq_ok.mp h
  obtain rfl := exactly_eq_ok.mp hopen
  obtain ⟨u, mid', hdiscard, htail⟩ := bind_eq_ok.mp hread
  obtain ⟨o, hfeed⟩ := discard_eq_ok.mp hdiscard
  obtain ⟨t, rfl, hlength, -, ht⟩ := blockTail_eq_some hquote (ofOption_eq_ok.mp htail)
  -- What matters of the text is only whether it starts with a line end.
  have build {feed : Text} {o : Option Unit} (hopt : ∀ other,
      optional? newline (feed ++ (t ++ other)) = .ok (o, t ++ other)) :
      Takes (block quote escapes) (quote :: ([quote, quote] ++ feed ++ t)) v (· == quote) := by
    intro other hother
    have htext : quote :: ([quote, quote] ++ feed ++ t) ++ other =
        [quote, quote, quote] ++ (feed ++ (t ++ other)) := by simp
    rw [htext]
    exact bind_eq_ok.mpr ⟨(), _, exactly_eq_ok.mpr rfl, bind_eq_ok.mpr
      ⟨(), _, discard_eq_ok.mpr ⟨o, hopt other⟩, ofOption_eq_ok.mpr (ht other hother)⟩⟩
  rcases optional?_eq_ok.mp hfeed with ⟨u, rfl, hline⟩ | ⟨rfl, rfl, hfails⟩
  · obtain ⟨feed, hends, rfl⟩ := newline_eq_ok.mp hline
    exact ⟨[quote, quote] ++ feed ++ t, by simp, build fun other =>
      optional?_eq_ok.mpr (.inl ⟨(), rfl, newline_eq_ok.mpr ⟨feed, hends, rfl⟩⟩)⟩
  · have htakes :
        Takes (block quote escapes) (quote :: ([quote, quote] ++ [] ++ t)) v (· == quote) :=
      build fun other => optional?_eq_ok.mpr
        (.inr ⟨rfl, rfl, newline_fails_of_prefix hfails (by omega) other⟩)
    exact ⟨[quote, quote] ++ [] ++ t, by simp, htakes⟩

theorem fails_of_exactly {quote : Char} {t : Text} {f : Unit → Reader α}
    (h : Stops (· == quote) s) : Fails (exactly (quote :: t) >>= f) s := by
  refine fails_of_forall fun a r hr => ?_
  obtain ⟨u, mid, hopen, -⟩ := bind_eq_ok.mp hr
  rw [exactly_eq_ok.mp hopen] at h
  simp at h

theorem Stops.of_isQuote {quote : Char} (hquote : isQuote quote = true) (h : Stops isQuote s) :
    Stops (· == quote) s := by
  intro c hc
  have := h c hc
  by_contra heq
  simp_all

/-- One quote and the rest of a one-line string are no opening of a string of several lines. -/
theorem block_fails_of_tail {quote : Char} {escapes : Bool} {t : Text}
    (hempty : ∀ t', t = quote :: t' → t' = []) (hne : t ≠ []) (hrest : Stops (· == quote) rest) :
    Fails (block quote escapes) (quote :: t ++ rest) := by
  refine fails_of_forall fun a r hr => ?_
  obtain ⟨u, mid, hopen, -⟩ := bind_eq_ok.mp hr
  have htext := exactly_eq_ok.mp hopen
  obtain ⟨c, t, rfl⟩ := List.exists_cons_of_ne_nil hne
  simp only [List.cons_append, List.nil_append, List.cons.injEq, true_and] at htext
  obtain ⟨rfl, htext⟩ := htext
  obtain rfl := hempty t rfl
  rw [List.nil_append] at htext
  rw [htext] at hrest
  simp at hrest

theorem string_eq_ok (h : string s = .ok (v, rest)) :
    ∃ c t, isQuote c = true ∧ s = c :: t ++ rest ∧ Takes string (c :: t) v isQuote := by
  rcases orElse_eq_ok.mp h with h | ⟨-, h⟩
  · obtain ⟨t, rfl, ht⟩ := block_eq_ok rfl h
    exact ⟨'"', t, rfl, rfl, fun other hother =>
      orElse_eq_ok.mpr (.inl (ht other (Stops.of_isQuote rfl hother)))⟩
  rcases orElse_eq_ok.mp h with h | ⟨-, h⟩
  · obtain ⟨t, rfl, ht, htail⟩ := basic_eq_ok h
    refine ⟨'"', t, rfl, rfl, fun other hother => orElse_eq_ok.mpr (.inr
      ⟨block_fails_of_tail ?_ ?_ (Stops.of_isQuote rfl hother),
        orElse_eq_ok.mpr (.inl (ht other))⟩)⟩
    · rintro t' rfl
      have := htail []
      simp [basicTail] at this
      exact this.2
    · rintro rfl
      have := htail []
      simp [basicTail] at this
  rcases orElse_eq_ok.mp h with h | ⟨-, h⟩
  · obtain ⟨t, rfl, ht⟩ := block_eq_ok rfl h
    refine ⟨'\'', t, rfl, rfl, fun other hother => orElse_eq_ok.mpr (.inr
      ⟨fails_of_exactly (by simp), orElse_eq_ok.mpr (.inr ⟨fails_of_exactly (by simp),
        orElse_eq_ok.mpr (.inl (ht other (Stops.of_isQuote rfl hother)))⟩)⟩)⟩
  · obtain ⟨t, rfl, ht, htail⟩ := literal_eq_ok h
    refine ⟨'\'', t, rfl, rfl, fun other hother => orElse_eq_ok.mpr (.inr
      ⟨fails_of_exactly (by simp), orElse_eq_ok.mpr (.inr ⟨fails_of_exactly (by simp),
        orElse_eq_ok.mpr (.inr ⟨block_fails_of_tail ?_ ?_ (Stops.of_isQuote rfl hother),
          ht other⟩)⟩)⟩)⟩
    · rintro t' rfl
      have := htail []
      simp [literalTail] at this
      exact this.2
    · rintro rfl
      have := htail []
      simp [literalTail] at this

end Reader
end Toml
end Shorthand
