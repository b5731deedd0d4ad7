import Shorthand.Proofs.Toml.Strings
import Shorthand.Toml.Spelling

/-!
The spelling of a text as a string is read back as the text.
-/

namespace Shorthand
namespace Toml

variable {v rest : Text} {c : Char}

theorem Char.lt_space_iff : c < ' ' ↔ c.toNat < 32 := by
  rw [Char.lt_def, UInt32.lt_iff_toNat_lt]
  rfl

theorem isPrintable_of_not_needsCode (h : needsCode c = false) (hfeed : c ≠ '\n') :
    isPrintable c = true := by
  by_cases htab : c = '\t'
  · simp [isPrintable, htab]
  · simpa [needsCode, isPrintable, htab, hfeed] using h

/-- The rest of an escape that stands for the character. -/
def EscapeOf (u : Text) (c : Char) : Prop :=
  ∀ rest, escape? (u ++ rest) = some (c, u.length) ∧ endsLine (u ++ rest) = false

theorem codeEscape_eq (h : needsCode c = true) :
    ∃ u, codeEscape c = '\\' :: u ∧ EscapeOf u c := by
  have hall : ∀ n < 128, needsCode (Char.ofNat n) = true →
      (codeEscape (Char.ofNat n)).take 2 = ['\\', 'u'] ∧
      ((codeEscape (Char.ofNat n)).drop 2).length = 4 ∧
      (hexValue? ((codeEscape (Char.ofNat n)).drop 2)).bind scalarValue? = some (Char.ofNat n) := by
    decide +kernel
  have hc : c.toNat < 128 := by
    simp only [needsCode, Bool.or_eq_true, Bool.and_eq_true, decide_eq_true_eq] at h
    rcases h with ⟨⟨h, -⟩, -⟩ | rfl
    · rw [Char.lt_space_iff] at h
      omega
    · decide
  have hcode := hall c.toNat hc
  rw [Char.ofNat_toNat] at hcode
  obtain ⟨hstart, hlength, hvalue⟩ := hcode h
  obtain ⟨digits, hdigits⟩ : ∃ digits, codeEscape c = '\\' :: 'u' :: digits :=
    ⟨_, by rw [← List.take_append_drop 2 (codeEscape c), hstart]; rfl⟩
  rw [hdigits] at hlength hvalue
  refine ⟨_, hdigits, fun rest => ⟨?_, rfl⟩⟩
  have hlength : digits.length = 4 := hlength
  rw [List.cons_append, escape?_cons, if_pos rfl, numbered?,
    if_neg (by rw [List.length_append]; omega), List.take_append_of_le_length (by omega),
    List.take_of_length_le (by omega)]
  have hvalue : (hexValue? digits).bind scalarValue? = some c := hvalue
  rw [hvalue, Option.map_some, List.length_cons, hlength]

/-- How a character other than a quote is written in a string with escapes. -/
def shown (block : Bool) (c : Char) : Text :=
  if c = '\x08' then ['\\', 'b']
  else if c = '\t' then ['\\', 't']
  else if c = '\n' then (if block then ['\n'] else ['\\', 'n'])
  else if c = '\x0c' then ['\\', 'f']
  else if c = '\r' then ['\\', 'r']
  else if c = '\\' then ['\\', '\\']
  else if needsCode c then codeEscape c
  else [c]

theorem escaped_cons (block : Bool) (quotes run : Nat) (c : Char) (rest : Text) :
    escaped block quotes run (c :: rest) =
      if c = '"' then
        if run < quotes then '"' :: escaped block quotes (run + 1) rest
        else '\\' :: (['"'] ++ escaped block quotes 0 rest)
      else shown block c ++ escaped block quotes 0 rest := rfl

theorem shown_cases (block : Bool) (c : Char) :
    (∃ u, shown block c = '\\' :: u ∧ EscapeOf u c) ∨
      shown block c = [c] ∧ c ≠ '\\' ∧ (isPrintable c = true ∨ block = true ∧ c = '\n') := by
  have short {x : Char} (h : shortEscape? x = some c) (hx : x ≠ 'u' ∧ x ≠ 'U' ∧ isSpace x = false ∧
      x ≠ '\n' ∧ x ≠ '\r') : EscapeOf [x] c := by
    intro rest
    simp [escape?_cons, h, hx, endsLine]
  unfold shown
  split
  · rename_i hc
    exact .inl ⟨['b'], rfl, short (by rw [hc]; rfl) (by decide)⟩
  split
  · rename_i hc
    exact .inl ⟨['t'], rfl, short (by rw [hc]; rfl) (by decide)⟩
  split
  · rename_i hc
    cases block with
    | true => exact .inr ⟨by rw [if_pos rfl, hc], by rw [hc]; decide, .inr ⟨rfl, hc⟩⟩
    | false => exact .inl ⟨['n'], rfl, short (by rw [hc]; rfl) (by decide)⟩
  split
  · rename_i hc
    exact .inl ⟨['f'], rfl, short (by rw [hc]; rfl) (by decide)⟩
  split
  · rename_i hc
    exact .inl ⟨['r'], rfl, short (by rw [hc]; rfl) (by decide)⟩
  split
  · rename_i hc
    exact .inl ⟨['\\'], rfl, short (by rw [hc]; rfl) (by decide)⟩
  split
  · rename_i hcode
    exact .inl (codeEscape_eq hcode)
  · rename_i hfeed _ _ hslash hcode
    exact .inr ⟨rfl, hslash, .inl (isPrintable_of_not_needsCode (by simpa using hcode) hfeed)⟩

theorem escapeOf_quote : EscapeOf ['"'] '"' := by
  intro rest
  simp [escape?_cons, shortEscape?, endsLine, isSpace]

theorem basicTail_skip (u rest : Text) : basicTail u.length (u ++ rest) = basicTail 0 rest := by
  induction u with
  | nil => rfl
  | cons c u ih => rw [List.length_cons, List.cons_append, basicTail, ih]

theorem basicTail_escape {u : Text} (h : EscapeOf u c) (rest : Text) :
    basicTail 0 ('\\' :: (u ++ rest)) = consTo c (basicTail 0 rest) := by
  simp only [basicTail, (h rest).1, basicTail_skip, if_neg (by decide : ¬ '\\' = '"'), if_true]

theorem basicTail_escaped (v rest : Text) :
    basicTail 0 (escaped false 0 0 v ++ '"' :: rest) = some (v, rest) := by
  induction v with
  | nil => simp [escaped, basicTail]
  | cons c v ih =>
      rw [escaped_cons]
      split
      · rename_i hc
        subst hc
        rw [if_neg (Nat.not_lt_zero _), List.cons_append, List.append_assoc,
          basicTail_escape escapeOf_quote, ih]
        rfl
      · rename_i hquote
        rw [List.append_assoc]
        rcases shown_cases false c with ⟨u, hu, hescape⟩ | ⟨hself, hslash, hprintable | ⟨hblock, -⟩⟩
        · rw [hu, List.cons_append, basicTail_escape hescape, ih]
          rfl
        · rw [hself, List.cons_append, List.nil_append, basicTail, if_neg hquote, if_neg hslash,
            if_pos hprintable, ih]
          rfl
        · contradiction

/-- A text that may stand in a string of several lines for another: characters as they are or as
escapes, and never three quotes in a row. -/
inductive Encodes (quote : Char) (escapes : Bool) : Text → Text → Prop where
  | nil : Encodes quote escapes [] []
  | escape {u e v : Text} {c : Char} (hescapes : escapes = true) (hu : EscapeOf u c)
      (h : Encodes quote escapes e v) : Encodes quote escapes ('\\' :: (u ++ e)) (c :: v)
  | self {e v : Text} {c : Char} (hquote : c ≠ quote) (hslash : escapes = true → c ≠ '\\')
      (hc : isPrintable c = true ∨ c = '\n') (h : Encodes quote escapes e v) :
      Encodes quote escapes (c :: e) (c :: v)
  | quote {e v : Text} (hrun : ∀ e', e ≠ quote :: quote :: e') (h : Encodes quote escapes e v) :
      Encodes quote escapes (quote :: e) (quote :: v)

variable {quote : Char} {escapes : Bool} {e : Text}

theorem blockTail_skip (u rest : Text) :
    blockTail quote escapes false u.length (u ++ rest) = blockTail quote escapes false 0 rest := by
  induction u with
  | nil => rfl
  | cons c u ih => rw [List.length_cons, List.cons_append, blockTail, ih]

theorem Encodes.eq_nil (h : Encodes quote escapes e v) (he : e = []) : v = [] := by
  cases h with
  | nil => rfl
  | escape | self | quote => contradiction

theorem Encodes.eq_of_quote (hslash : quote ≠ '\\') (h : Encodes quote escapes e v)
    (he : e = [quote]) : v = [quote] := by
  cases h with
  | nil => contradiction
  | escape => exact absurd (List.cons.inj he).1.symm hslash
  | self hquote => exact absurd (List.cons.inj he).1 hquote
  | quote _ h => rw [h.eq_nil (List.cons.inj he).2]

theorem blockTail_self (hne : c ≠ quote)
    (hslash : escapes = true → c ≠ '\\') (hc : isPrintable c = true ∨ c = '\n') (rest : Text) :
    blockTail quote escapes false 0 (c :: rest) =
      consTo c (blockTail quote escapes false 0 rest) := by
  by_cases hfeed : c = '\n'
  · subst hfeed
    rfl
  · have hprintable := hc.resolve_right hfeed
    have hclose : ¬ [quote, quote, quote].isPrefixOf (c :: rest) = true := by
      simp [List.isPrefixOf, hne.symm]
    rw [blockTail, if_neg hfeed, if_neg (ne_return_of_isPrintable hprintable), if_neg (by simp),
      if_neg hclose, if_neg (by simpa using hslash), if_pos hprintable]

theorem blockTail_escape (hslash : quote ≠ '\\') {u : Text} (hu : EscapeOf u c) (rest : Text) :
    blockTail quote true false 0 ('\\' :: (u ++ rest)) =
      consTo c (blockTail quote true false 0 rest) := by
  have hclose : ¬ [quote, quote, quote].isPrefixOf ('\\' :: (u ++ rest)) = true := by
    simp [List.isPrefixOf, hslash]
  rw [blockTail, if_neg (by decide), if_neg (by decide), if_neg (by simp), if_neg hclose,
    if_pos (by simp), if_neg (by rw [(hu rest).2]; decide)]
  simp only [(hu rest).1, blockTail_skip]

theorem blockTail_quote (hquote : isQuote quote = true)
    (hclose : ¬ [quote, quote, quote].isPrefixOf (quote :: rest) = true) :
    blockTail quote escapes false 0 (quote :: rest) =
      consTo quote (blockTail quote escapes false 0 rest) := by
  rw [blockTail, if_neg, if_neg, if_neg (by simp), if_neg hclose, if_neg, if_pos]
  all_goals rcases isQuote_iff.mp hquote with rfl | rfl <;> first | decide | simp

theorem Encodes.blockTail (hquote : isQuote quote = true) (h : Encodes quote escapes e v)
    (hrest : Stops (· == quote) rest) :
    blockTail quote escapes false 0 (e ++ (quote :: quote :: quote :: rest)) = some (v, rest) := by
  have hslash : quote ≠ '\\' := by rintro rfl; contradiction
  induction h with
  | nil => rw [List.nil_append, blockTail_close hquote, closeQuotes_of_stops hrest]
  | escape hescapes hu _ ih =>
      subst hescapes
      rw [List.cons_append, List.append_assoc, blockTail_escape hslash hu, ih]
      rfl
  | self hne hself hc _ ih =>
      rw [List.cons_append, blockTail_self hne hself hc, ih]
      rfl
  | @quote e v hrun h ih =>
      match e with
      | [] =>
          rw [h.eq_nil rfl, List.cons_append, List.nil_append, blockTail_close hquote,
            closeQuotes_one hrest]
      | [d] =>
          by_cases hd : d = quote
          · subst hd
            rw [h.eq_of_quote hslash rfl]
            simp only [List.cons_append, List.nil_append]
            rw [blockTail_close hquote, closeQuotes_two]
          · rw [List.cons_append, blockTail_quote hquote (by simp [List.isPrefixOf, Ne.symm hd]),
              ih]
            rfl
      | d :: d' :: e =>
          have hne : ¬ (quote = d ∧ quote = d') := by
            rintro ⟨rfl, rfl⟩
            exact hrun e rfl
          rw [List.cons_append, blockTail_quote hquote (by simpa [List.isPrefixOf] using hne), ih]
          rfl

theorem stops_shown (hc : c ≠ '"') (block : Bool) (rest : Text) :
    Stops (· == '"') (shown block c ++ rest) := by
  rcases shown_cases block c with ⟨u, hu, -⟩ | ⟨hself, -⟩
  · rw [hu]
    exact stops_cons.mpr rfl
  · rw [hself]
    exact stops_cons.mpr (by simpa using hc)

theorem stops_escaped (block : Bool) (quotes : Nat) (v : Text) :
    Stops (· == '"') (escaped block quotes quotes v) := by
  cases v with
  | nil => exact stops_nil
  | cons c v =>
      rw [escaped_cons, if_neg (Nat.lt_irrefl quotes)]
      split
      · exact stops_cons.mpr rfl
      · rename_i hc
        exact stops_shown hc block _

theorem escaped_ne_quotes {run : Nat} (h : 0 < run) (v e : Text) :
    escaped true 2 run v ≠ '"' :: '"' :: e := by
  intro heq
  cases v with
  | nil => contradiction
  | cons c v =>
      rw [escaped_cons] at heq
      split at heq
      · split at heq
        · obtain rfl : run = 1 := by omega
          have hstops := stops_escaped true 2 v
          rw [(List.cons.inj heq).2] at hstops
          simp at hstops
        · cases heq
      · rename_i hc
        have hstops := stops_shown hc true (escaped true 2 0 v)
        rw [heq] at hstops
        simp at hstops

theorem encodes_escaped {run : Nat} (hrun : run ≤ 2) (v : Text) :
    Encodes '"' true (escaped true 2 run v) v := by
  induction v generalizing run with
  | nil => exact .nil
  | cons c v ih =>
      rw [escaped_cons]
      split
      · rename_i hc
        subst hc
        split
        · rename_i hlt
          exact .quote (escaped_ne_quotes (Nat.succ_pos run) v) (ih hlt)
        · exact .escape rfl escapeOf_quote (ih (Nat.zero_le 2))
      · rename_i hquote
        rcases shown_cases true c with ⟨u, hu, hescape⟩ | ⟨hself, hslash, hc⟩
        · rw [hu, List.cons_append]
          exact .escape rfl hescape (ih (Nat.zero_le 2))
        · rw [hself]
          exact .self hquote (fun _ => hslash) (hc.imp_right And.right) (ih (Nat.zero_le 2))

theorem longestRun_ge (c : Char) (current : Nat) (v : Text) : current ≤ longestRun c current v := by
  induction v generalizing current with
  | nil => exact Nat.le_refl _
  | cons x v ih =>
      rw [longestRun]
      split
      · exact Nat.le_of_succ_le (ih _)
      · exact Nat.le_max_left ..

/-- A text without three quotes in a row needs no escapes in a string of several lines. -/
theorem encodes_self {current : Nat} (hrun : longestRun quote current v ≤ 2)
    (hself : ∀ c ∈ v, c ≠ quote → (escapes = true → c ≠ '\\') ∧
      (isPrintable c = true ∨ c = '\n')) : Encodes quote escapes v v := by
  induction v generalizing current with
  | nil => exact .nil
  | cons c v ih =>
      have htail := fun x hx => hself x (List.mem_cons_of_mem _ hx)
      rw [longestRun] at hrun
      split at hrun
      · rename_i hc
        subst hc
        refine .quote ?_ (ih hrun htail)
        rintro e rfl
        have := longestRun_ge c (current + 1 + 1 + 1) e
        simp only [longestRun, if_true] at hrun
        omega
      · rename_i hc
        obtain ⟨hslash, hprintable⟩ := hself c List.mem_cons_self hc
        exact .self hc hslash hprintable (ih (Nat.le_trans (Nat.le_max_right ..) hrun) htail)

theorem literalTail_self (hv : ∀ c ∈ v, c ≠ '\'' ∧ isPrintable c = true) (rest : Text) :
    literalTail (v ++ '\'' :: rest) = some (v, rest) := by
  induction v with
  | nil => simp [literalTail]
  | cons c v ih =>
      obtain ⟨⟨hquote, hprintable⟩, hv⟩ := List.forall_mem_cons.mp hv
      rw [List.cons_append, literalTail, if_neg hquote, if_pos hprintable, ih hv]
      rfl

theorem ne_of_longestRun (h : longestRun c 0 v = 0) : ∀ x ∈ v, x ≠ c := by
  induction v with
  | nil => nofun
  | cons y v ih =>
      rw [longestRun] at h
      split at h
      · have := longestRun_ge c (0 + 1) v
        omega
      · rename_i hy
        exact List.forall_mem_cons.mpr ⟨hy, ih (by omega)⟩

theorem Encodes.stops (hquote : isQuote quote = true) (h : Encodes quote escapes e v)
    (hfeed : '\n' ∉ v) : Stops opensLine e := by
  cases h with
  | nil => exact stops_nil
  | escape => exact stops_cons.mpr rfl
  | @self _ _ c _ _ hc _ =>
      have hne : c ≠ '\n' := fun hc => hfeed (hc ▸ List.mem_cons_self)
      refine stops_cons.mpr ?_
      simp [opensLine, hne, ne_return_of_isPrintable (hc.resolve_right hne)]
  | quote =>
      rcases isQuote_iff.mp hquote with rfl | rfl <;> exact stops_cons.mpr rfl

namespace Reader

theorem block_takes {e : Text} (hquote : isQuote quote = true) (h : Encodes quote escapes e v) :
    Takes (block quote escapes) (blockStart quote v ++ e ++ [quote, quote, quote]) v
      (· == quote) := by
  intro rest hrest
  have htail := h.blockTail hquote hrest
  have hopt : ∃ o, optional? newline ((if v.contains '\n' then ['\n'] else []) ++
      (e ++ (quote :: quote :: quote :: rest))) =
        .ok (o, e ++ (quote :: quote :: quote :: rest)) := by
    split
    · exact ⟨some (), optional?_eq_ok.mpr (.inl ⟨(), rfl, newline_eq_ok.mpr ⟨_, .feed, rfl⟩⟩)⟩
    · rename_i hfeed
      refine ⟨none, optional?_eq_ok.mpr (.inr ⟨rfl, rfl, newline_fails ?_⟩)⟩
      refine (h.stops hquote (by simpa using hfeed)).append fun _ => stops_cons.mpr ?_
      rcases isQuote_iff.mp hquote with rfl | rfl <;> rfl
  obtain ⟨o, hopt⟩ := hopt
  simp only [blockStart, List.append_assoc]
  exact bind_eq_ok.mpr ⟨(), _, exactly_eq_ok.mpr rfl, bind_eq_ok.mpr
    ⟨(), _, discard_eq_ok.mpr ⟨o, hopt⟩, ofOption_eq_ok.mpr htail⟩⟩

theorem basicSpelling_takes (v : Text) : Takes string (basicSpelling v) v isQuote := by
  intro rest hrest
  have htail : basic (basicSpelling v ++ rest) = .ok (v, rest) := by
    have htext : basicSpelling v ++ rest = ['"'] ++ (escaped false 0 0 v ++ '"' :: rest) := by
      simp [basicSpelling]
    rw [htext]
    exact bind_eq_ok.mpr
      ⟨(), _, exactly_eq_ok.mpr rfl, ofOption_eq_ok.mpr (basicTail_escaped v rest)⟩
  refine orElse_eq_ok.mpr (.inr ⟨block_fails_of_tail ?_ ?_ (Stops.of_isQuote rfl hrest),
    orElse_eq_ok.mpr (.inl htail)⟩)
  · intro t ht
    have hstops := stops_escaped false 0 v
    cases he : escaped false 0 0 v with
    | nil =>
        rw [he] at ht
        cases ht
        rfl
    | cons c e =>
        rw [he, stops_cons] at hstops
        rw [he, List.cons_append] at ht
        rw [(List.cons.inj ht).1] at hstops
        contradiction
  · simp

theorem literal_takes (hv : ∀ c ∈ v, c ≠ '\'' ∧ isPrintable c = true) :
    Takes string ('\'' :: (v ++ ['\''])) v isQuote := by
  intro rest hrest
  have htail : literal ('\'' :: (v ++ ['\'']) ++ rest) = .ok (v, rest) := by
    have htext : '\'' :: (v ++ ['\'']) ++ rest = ['\''] ++ (v ++ '\'' :: rest) := by simp
    rw [htext]
    exact bind_eq_ok.mpr
      ⟨(), _, exactly_eq_ok.mpr rfl, ofOption_eq_ok.mpr (literalTail_self hv rest)⟩
  refine orElse_eq_ok.mpr (.inr ⟨fails_of_exactly (by simp), orElse_eq_ok.mpr (.inr
    ⟨fails_of_exactly (by simp), orElse_eq_ok.mpr (.inr
      ⟨block_fails_of_tail ?_ ?_ (Stops.of_isQuote rfl hrest), htail⟩)⟩)⟩)
  · intro t ht
    cases v with
    | nil => cases ht; rfl
    | cons c v =>
        rw [List.cons_append] at ht
        exact absurd (List.cons.inj ht).1 (hv c List.mem_cons_self).1
  · simp

theorem block_takes_string {e : Text} (h : Encodes quote escapes e v)
    (hquote : quote = '"' ∧ escapes = true ∨ quote = '\'' ∧ escapes = false) :
    Takes string (blockStart quote v ++ e ++ [quote, quote, quote]) v isQuote := by
  intro rest hrest
  rcases hquote with ⟨rfl, rfl⟩ | ⟨rfl, rfl⟩
  · exact orElse_eq_ok.mpr (.inl (block_takes rfl h rest (Stops.of_isQuote rfl hrest)))
  · have hread := block_takes rfl h rest (Stops.of_isQuote rfl hrest)
    exact orElse_eq_ok.mpr (.inr ⟨fails_of_exactly (by simp [blockStart]), orElse_eq_ok.mpr (.inr
      ⟨fails_of_exactly (by simp [blockStart]), orElse_eq_ok.mpr (.inl hread)⟩)⟩)

/-- A text spelled as a string is read back. -/
theorem stringSpelling_takes (v : Text) : Takes string (stringSpelling v) v isQuote := by
  have hblock : Takes string (blockSpelling v) v isQuote :=
    block_takes_string (encodes_escaped (Nat.zero_le 2) v) (.inl ⟨rfl, rfl⟩)
  have hprintable (hcoded : v.any needsCode = false) (c : Char) (hc : c ∈ v) :
      isPrintable c = true ∨ c = '\n' := by
    by_cases hfeed : c = '\n'
    · exact .inr hfeed
    · exact .inl (isPrintable_of_not_needsCode (by simpa using List.any_eq_false.mp hcoded c hc)
        hfeed)
  unfold stringSpelling
  simp only
  split
  · exact basicSpelling_takes v
  split
  · rename_i h
    simp only [Bool.and_eq_true, decide_eq_true_eq, Bool.not_eq_true'] at h
    obtain ⟨⟨hcoded, hsingles⟩, hfeed⟩ := h
    refine literal_takes fun c hc => ⟨ne_of_longestRun hsingles c hc, ?_⟩
    refine (hprintable hcoded c hc).resolve_right ?_
    rintro rfl
    simp_all
  split
  · exact hblock
  split
  · rename_i h
    simp only [Bool.and_eq_true, decide_eq_true_eq, Bool.not_eq_true'] at h
    obtain ⟨hcoded, hsingles⟩ := h
    refine block_takes_string ?_ (.inr ⟨rfl, rfl⟩)
    exact encodes_self hsingles fun c hc _ => ⟨nofun, hprintable hcoded c hc⟩
  split
  · exact hblock
  · exact basicSpelling_takes v

end Reader
end Toml
end Shorthand
